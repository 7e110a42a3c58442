import GuidedDataflow.Document.Yaml.Writer

/-!
The white space that the writer puts between the words and lines of a scalar, as it is read again.
Within a line it is a run of spaces, which is kept; between lines it is a run of line ends and the
indentation behind it, of which the line ends are kept.
-/

namespace GuidedDataflow.Yaml

/-- The text is over or begins with neither a blank nor a line end. -/
def Solid (cs : List Char) : Prop := ∀ c ∈ cs.head?, isBlankOrBreak c = false

theorem solid_nil : Solid [] := fun _ h => nomatch h

theorem solid_cons {c : Char} {cs : List Char} : Solid (c :: cs) ↔ isBlankOrBreak c = false := by
  simp [Solid]

/-- A line end that is written as it is. -/
def KeptBreak (c : Char) : Prop := isBreak c = true ∧ isPrintable c = true

theorem keptBreak_iff {c : Char} : KeptBreak c ↔ c = '\n' ∨ c = '\u2028' ∨ c = '\u2029' := by
  constructor
  · rintro ⟨hbreak, hprintable⟩
    simp only [isBreak, Bool.or_eq_true, decide_eq_true_eq] at hbreak
    rcases hbreak with (((rfl | rfl) | rfl) | rfl) | rfl
    · exact .inl rfl
    · exact absurd hprintable (by decide)
    · exact absurd hprintable (by decide)
    · exact .inr (.inl rfl)
    · exact .inr (.inr rfl)
  · rintro (rfl | rfl | rfl) <;> exact ⟨by decide, by decide⟩

namespace KeptBreak

variable {c : Char} (h : KeptBreak c) (cs : List Char)
include h

theorem breakLength : Source.breakLength (c :: cs) = 1 := by
  rcases keptBreak_iff.1 h with rfl | rfl | rfl <;> rfl

theorem breakChar : Source.breakChar (c :: cs) = c := by
  rcases keptBreak_iff.1 h with rfl | rfl | rfl <;> rfl

omit cs in
theorem not_spaceOrTab : isSpaceOrTab c = false := by
  rcases keptBreak_iff.1 h with rfl | rfl | rfl <;> decide

end KeptBreak

theorem length_spaces (n : Nat) : (spaces n).length = n := List.length_replicate

theorem spaces_succ (n : Nat) : spaces (n + 1) = ' ' :: spaces n := List.replicate_succ

/-- Document markers stand at the start of a line. -/
theorem atDocumentMarker_of_pos {rest : List Char} {index line column : Nat} (h : column ≠ 0) :
    Source.atDocumentMarker ⟨rest, index, line, column⟩ = false := by
  simp [Source.atDocumentMarker, Source.atDocumentStart, Source.atDocumentEnd, Source.atMarker, h]

namespace Gap

variable {rest : List Char} {index line column indent fuel : Nat} {g : Gap}

theorem scan?_of_solid (h : Solid rest) :
    scan? indent fuel ⟨rest, index, line, column⟩ g = some (g, ⟨rest, index, line, column⟩) := by
  cases fuel with
  | zero => rfl
  | succ fuel =>
    cases rest with
    | nil => rfl
    | cons c cs =>
      have hc : isSpaceOrTab c = false ∧ isBreak c = false := by
        simpa [isBlankOrBreak] using solid_cons.1 h
      simp [scan?, hc]

/-- Spaces before any line end are part of the gap. -/
theorem scan?_spaces (hg : g.first = none) (n : Nat) :
    scan? indent (n + fuel) ⟨spaces n ++ rest, index, line, column⟩ g =
      scan? indent fuel ⟨rest, index + n, line, column + n⟩
        { g with blanks := g.blanks ++ spaces n } := by
  induction n generalizing index column g with
  | zero => simp [spaces]
  | succ n ih =>
    have hstep : scan? indent (n + 1 + fuel) ⟨spaces (n + 1) ++ rest, index, line, column⟩ g =
        scan? indent (n + fuel) ⟨spaces n ++ rest, index + 1, line, column + 1⟩
          { g with blanks := g.blanks ++ [' '] } := by
      rw [Nat.add_right_comm, scan?]
      simp [spaces_succ, isSpaceOrTab, broken, hg, Source.advance]
    rw [hstep, ih (g := { g with blanks := g.blanks ++ [' '] }) hg, spaces_succ]
    simp only [Nat.add_assoc, Nat.add_comm 1, List.append_assoc, List.singleton_append]

/-- Spaces behind a line end are indentation. -/
theorem scan?_indentation (hg : g.broken = true) (n : Nat) :
    scan? indent (n + fuel) ⟨spaces n ++ rest, index, line, column⟩ g =
      scan? indent fuel ⟨rest, index + n, line, column + n⟩ g := by
  induction n generalizing index column with
  | zero => simp [spaces]
  | succ n ih =>
    have hstep : scan? indent (n + 1 + fuel) ⟨spaces (n + 1) ++ rest, index, line, column⟩ g =
        scan? indent (n + fuel) ⟨spaces n ++ rest, index + 1, line, column + 1⟩ g := by
      rw [Nat.add_right_comm, scan?]
      simp [spaces_succ, isSpaceOrTab, hg, Source.advance]
    rw [hstep, ih]
    simp only [Nat.add_assoc, Nat.add_comm 1]

theorem scan?_firstBreak {c : Char} (hc : KeptBreak c) (hg : g.broken = false) :
    scan? indent (fuel + 1) ⟨c :: rest, index, line, column⟩ g =
      scan? indent fuel ⟨rest, index + 1, line + 1, 0⟩ ⟨[], some c, []⟩ := by
  simp [scan?, hc.not_spaceOrTab, hc.1, hg, hc.breakLength, hc.breakChar, Source.newLine]

theorem scan?_moreBreaks {cs : List Char} (hcs : ∀ c ∈ cs, KeptBreak c) (hg : g.broken = true) :
    scan? indent (cs.length + fuel) ⟨cs ++ rest, index, line, 0⟩ g =
      scan? indent fuel ⟨rest, index + cs.length, line + cs.length, 0⟩
        { g with more := g.more ++ cs } := by
  induction cs generalizing index line g with
  | nil => simp
  | cons c cs ih =>
    obtain ⟨hc, hcs⟩ := List.forall_mem_cons.1 hcs
    have hstep : scan? indent ((c :: cs).length + fuel) ⟨c :: cs ++ rest, index, line, 0⟩ g =
        scan? indent (cs.length + fuel) ⟨cs ++ rest, index + 1, line + 1, 0⟩
          { g with more := g.more ++ [c] } := by
      rw [List.length_cons, Nat.add_right_comm, scan?]
      simp [hc.not_spaceOrTab, hc.1, hg, hc.breakLength, hc.breakChar, Source.newLine]
    rw [hstep, ih (g := { g with more := g.more ++ [c] }) hcs hg]
    simp only [List.length_cons, Nat.add_assoc, Nat.add_comm 1, List.append_assoc,
      List.singleton_append]

/-- A run of spaces is the whole gap. -/
theorem scan?_run (n : Nat) (h : Solid rest) :
    empty.scan? indent ((spaces n ++ rest).length + 1) ⟨spaces n ++ rest, index, line, column⟩ =
      some (⟨spaces n, none, []⟩, ⟨rest, index + n, line, column + n⟩) := by
  rw [List.length_append, length_spaces, Nat.add_assoc, scan?_spaces rfl, scan?_of_solid h]
  rfl

/-- Line ends and the indentation behind them are a gap that spans lines. -/
theorem scan?_lines {c : Char} {cs : List Char} (hc : KeptBreak c) (hcs : ∀ c ∈ cs, KeptBreak c)
    (n : Nat) (h : Solid rest) :
    empty.scan? indent ((c :: cs ++ spaces n ++ rest).length + 1)
        ⟨c :: cs ++ spaces n ++ rest, index, line, column⟩ =
      some (⟨[], some c, cs⟩, ⟨rest, index + (cs.length + 1) + n, line + (cs.length + 1), n⟩) := by
  have hfuel : (c :: cs ++ spaces n ++ rest).length + 1 =
      cs.length + (n + (rest.length + 1)) + 1 := by
    simp [length_spaces]
    omega
  rw [hfuel, List.append_assoc, List.cons_append, scan?_firstBreak hc rfl,
    scan?_moreBreaks hcs rfl, scan?_indentation rfl, scan?_of_solid h]
  simp [Nat.add_assoc, Nat.add_comm 1]

end Gap

end GuidedDataflow.Yaml
