import Mathlib.Algebra.Group.Nat.Defs
import GuidedDataflow.Proofs.Document.Yaml.Gap

/-!
Quoted scalars read back. In double quotes only spaces stand as they are, everything else that
could be lost is escaped. In single quotes separators of lines and paragraphs stand as they are
too, and the indentation behind them is not part of the text.
-/

namespace GuidedDataflow.Yaml

/-- From here on a quoted scalar goes on with the text `cs`, and `after` is what follows it. -/
def ReadsQuoted (double : Bool) (rest cs after : List Char) : Prop :=
  ∀ index line column fuel text, column ≠ 0 → rest.length < fuel →
    ∃ s : Source, s.rest = after ∧
      scanQuoted? double fuel ⟨rest, index, line, column⟩ text =
        some ⟨text.reverse ++ cs, s, false⟩

/-- White space is read in one step. -/
theorem scanQuoted?_gap {double : Bool} {c : Char} {rest text : List Char}
    {index line column fuel : Nat} {gap : Gap} {s : Source} (hc : isBlankOrBreak c = true)
    (hcolumn : column ≠ 0)
    (hgap : Gap.empty.scan? 0 ((c :: rest).length + 1) ⟨c :: rest, index, line, column⟩ =
      some (gap, s)) :
    scanQuoted? double (fuel + 1) ⟨c :: rest, index, line, column⟩ text =
      scanQuoted? double fuel s (gap.fold.reverse ++ text) := by
  have hquote : c ≠ '\'' ∧ c ≠ '"' ∧ c ≠ '\\' := by
    refine ⟨?_, ?_, ?_⟩ <;> rintro rfl <;> exact absurd hc (by decide)
  rw [scanQuoted?]
  simp only [atDocumentMarker_of_pos hcolumn, Bool.false_eq_true, if_false]
  split <;> simp_all [scanQuotedGap?]

namespace ReadsQuoted

variable {double : Bool} {rest cs after : List Char}

/-- One step that adds text, if it leaves the column above zero. -/
theorem of_step {more : List Char} (piece : List Char) (h : ReadsQuoted double rest cs after)
    (hlength : rest.length < more.length)
    (hstep : ∀ index line column fuel text, column ≠ 0 → ∃ index' line' column', column' ≠ 0 ∧
      scanQuoted? double (fuel + 1) ⟨more, index, line, column⟩ text =
        scanQuoted? double fuel ⟨rest, index', line', column'⟩ (piece.reverse ++ text)) :
    ReadsQuoted double more (piece ++ cs) after := by
  intro index line column fuel text hcolumn hfuel
  obtain ⟨fuel, rfl⟩ := Nat.exists_eq_add_one.2 (Nat.zero_lt_of_lt hfuel)
  obtain ⟨index', line', column', hcolumn', hstep⟩ := hstep index line column fuel text hcolumn
  obtain ⟨s, hs, hread⟩ := h index' line' column' fuel (piece.reverse ++ text) hcolumn' (by omega)
  refine ⟨s, hs, ?_⟩
  rw [hstep, hread]
  simp

theorem single_end (h : after.head? ≠ some '\'') : ReadsQuoted false ('\'' :: after) [] after := by
  intro index line column fuel text hcolumn hfuel
  obtain ⟨fuel, rfl⟩ := Nat.exists_eq_add_one.2 (Nat.zero_lt_of_lt hfuel)
  refine ⟨⟨after, index + 1, line, column + 1⟩, rfl, ?_⟩
  rw [scanQuoted?]
  simp only [atDocumentMarker_of_pos hcolumn, Bool.false_eq_true, if_false]
  split
  · simp at h
  · simp [Source.advance]

theorem double_end : ReadsQuoted true ('"' :: after) [] after := by
  intro index line column fuel text hcolumn hfuel
  obtain ⟨fuel, rfl⟩ := Nat.exists_eq_add_one.2 (Nat.zero_lt_of_lt hfuel)
  refine ⟨⟨after, index + 1, line, column + 1⟩, rfl, ?_⟩
  rw [scanQuoted?]
  simp [atDocumentMarker_of_pos hcolumn, Source.advance]

theorem apostrophe (h : ReadsQuoted false rest cs after) :
    ReadsQuoted false ('\'' :: '\'' :: rest) ('\'' :: cs) after := by
  refine h.of_step ['\''] (by simp only [List.length_cons]; omega) fun index line column fuel text hcolumn => ?_
  refine ⟨index + 2, line, column + 2, by omega, ?_⟩
  rw [scanQuoted?]
  simp [atDocumentMarker_of_pos hcolumn, Source.advance]

theorem single_char {c : Char} (hc : isBlankOrBreak c = false) (hquote : c ≠ '\'')
    (h : ReadsQuoted false rest cs after) : ReadsQuoted false (c :: rest) (c :: cs) after := by
  refine h.of_step [c] (by simp) fun index line column fuel text hcolumn => ?_
  refine ⟨index + 1, line, column + 1, by omega, ?_⟩
  rw [scanQuoted?]
  simp only [atDocumentMarker_of_pos hcolumn, Bool.false_eq_true, if_false]
  split <;> simp_all [Source.advance]

theorem double_char {c : Char} (hc : isBlankOrBreak c = false) (hquote : c ≠ '"')
    (hescape : c ≠ '\\') (h : ReadsQuoted true rest cs after) :
    ReadsQuoted true (c :: rest) (c :: cs) after := by
  refine h.of_step [c] (by simp) fun index line column fuel text hcolumn => ?_
  refine ⟨index + 1, line, column + 1, by omega, ?_⟩
  rw [scanQuoted?]
  simp only [atDocumentMarker_of_pos hcolumn, Bool.false_eq_true, if_false]
  split <;> simp_all [Source.advance]

/-- A run of spaces is kept. -/
theorem spaces_append (n : Nat) (hrest : Solid rest) (h : ReadsQuoted double rest cs after) :
    ReadsQuoted double (spaces n ++ rest) (spaces n ++ cs) after := by
  cases n with
  | zero => exact h
  | succ n =>
    refine h.of_step (spaces (n + 1)) (by simp [length_spaces])
      fun index line column fuel text hcolumn =>
        ⟨index + (n + 1), line, column + (n + 1), by omega, ?_⟩
    have hgap : Gap.empty.scan? 0 ((spaces (n + 1) ++ rest).length + 1)
        ⟨spaces (n + 1) ++ rest, index, line, column⟩ = _ :=
      Gap.scan?_run (n + 1) hrest
    rw [spaces_succ, List.cons_append] at hgap ⊢
    rw [scanQuoted?_gap rfl hcolumn hgap]
    simp [Gap.fold]

/-- Line ends are kept, the indentation behind them is not. -/
theorem lines_append {c : Char} {more : List Char} (hc : KeptBreak c) (hfeed : c ≠ '\n')
    (hmore : ∀ c ∈ more, KeptBreak c) {n : Nat} (hn : n ≠ 0) (hrest : Solid rest)
    (h : ReadsQuoted double rest cs after) :
    ReadsQuoted double (c :: more ++ spaces n ++ rest) (c :: more ++ cs) after := by
  refine h.of_step (c :: more) (by simp [length_spaces]; omega)
    fun index line column fuel text hcolumn =>
      ⟨index + (more.length + 1) + n, line + (more.length + 1), n, hn, ?_⟩
  have hgap : Gap.empty.scan? 0 ((c :: more ++ spaces n ++ rest).length + 1)
      ⟨c :: more ++ spaces n ++ rest, index, line, column⟩ = _ :=
    Gap.scan?_lines hc hmore n hrest
  have hfold : Gap.fold ⟨[], some c, more⟩ = c :: more := by
    rcases keptBreak_iff.1 hc with rfl | rfl | rfl
    · exact absurd rfl hfeed
    · rfl
    · rfl
  rw [List.append_assoc, List.cons_append] at hgap ⊢
  rw [scanQuoted?_gap (by simp [isBlankOrBreak, hc.1]) hcolumn hgap, hfold]

theorem escaped {c letter : Char} {more : List Char} (hletter : isBreak letter = false)
    (hescape : escape? (letter :: more ++ rest) = some (c, more.length + 1))
    (h : ReadsQuoted true rest cs after) :
    ReadsQuoted true ('\\' :: letter :: more ++ rest) (c :: cs) after := by
  refine h.of_step [c] (by simp; omega) fun index line column fuel text hcolumn =>
    ⟨index + (more.length + 2), line, column + (more.length + 2), by omega, ?_⟩
  rw [List.cons_append, scanQuoted?]
  simp only [atDocumentMarker_of_pos hcolumn, Bool.false_eq_true, if_false, hescape,
    List.cons_append, List.head?_cons, Option.any_some, hletter, if_true] at hescape ⊢
  simp [Source.advance]

end ReadsQuoted

theorem length_hexDigits (width n : Nat) : (hexDigits width n).length = width := by
  induction width generalizing n with
  | zero => rfl
  | succ width ih => simp [hexDigits, ih]

theorem hexValue?_hexDigit {n : Nat} (h : n < 16) :
    Json.hexValue? (Json.hexDigit n).toUpper = some n := by
  have : ∀ n : Fin 16, Json.hexValue? (Json.hexDigit n).toUpper = some n.1 := by decide
  exact this ⟨n, h⟩

/-- Digits read as the number that they write. -/
theorem mapM_hexDigits {width n : Nat} (h : n < 16 ^ width) :
    ∃ values, (hexDigits width n).mapM Json.hexValue? = some values ∧
      values.foldl (fun n d => 16 * n + d) 0 = n := by
  induction width generalizing n with
  | zero => exact ⟨[], rfl, by simp at h; simp [h]⟩
  | succ width ih =>
    obtain ⟨values, hread, hvalue⟩ := ih (n := n / 16) (by rw [Nat.pow_succ] at h; omega)
    refine ⟨values ++ [n % 16], ?_, ?_⟩
    · simp [hexDigits, List.mapM_append, hread, hexValue?_hexDigit (Nat.mod_lt n (by decide))]
    · rw [List.foldl_append, hvalue]
      exact Nat.div_add_mod n 16

theorem hexChar?_hexDigits {width : Nat} {c : Char} (h : c.toNat < 16 ^ width) :
    hexChar? (hexDigits width c.toNat) = some c := by
  obtain ⟨values, hread, hvalue⟩ := mapM_hexDigits h
  have hvalid : c.toNat.isValidChar := c.valid
  simp [hexChar?, hread, hvalue, hvalid]

/-- What a letter behind a backslash stands for, as the writer uses it. -/
theorem escape?_of_escapeLetter? {c letter : Char} (h : escapeLetter? c = some letter) :
    isBreak letter = false ∧ ∀ rest, escape? (letter :: rest) = some (c, 1) := by
  unfold escapeLetter? at h
  split at h <;> first
    | (obtain rfl := Option.some.inj h; exact ⟨by decide, fun _ => rfl⟩)
    | cases h

/-- An escape by the number of the character. -/
theorem escape?_hexDigits {c letter : Char} {width : Nat} (hwidth : escapeDigits letter = width + 1)
    (h : c.toNat < 16 ^ (width + 1)) (rest : List Char) :
    escape? (letter :: hexDigits (width + 1) c.toNat ++ rest) = some (c, width + 2) := by
  have hlength := length_hexDigits (width + 1) c.toNat
  have htake : (hexDigits (width + 1) c.toNat ++ rest).take (width + 1) =
      hexDigits (width + 1) c.toNat := List.take_left' hlength
  have henough : width + 1 ≤ (hexDigits (width + 1) c.toNat ++ rest).length := by
    rw [List.length_append, hlength]
    omega
  simp only [List.cons_append, escape?, hwidth, htake, hexChar?_hexDigits h,
    if_neg (Nat.not_lt.2 henough), Option.map_some]

/-- A character stands for itself, or its escape reads back. -/
theorem escapeDouble_cases (c : Char) :
    (escapeDouble c = [c] ∧ escapeLetter? c = none) ∨
      ∃ letter more, escapeDouble c = '\\' :: letter :: more ∧ isBreak letter = false ∧
        ∀ rest, escape? (letter :: more ++ rest) = some (c, more.length + 1) := by
  have hex {letter : Char} {width : Nat} (hbreak : isBreak letter = false)
      (hwidth : escapeDigits letter = width + 1) (h : c.toNat < 16 ^ (width + 1)) :
      ∃ letter' more, '\\' :: letter :: hexDigits (width + 1) c.toNat = '\\' :: letter' :: more ∧
        isBreak letter' = false ∧
        ∀ rest, escape? (letter' :: more ++ rest) = some (c, more.length + 1) :=
    ⟨letter, _, rfl, hbreak, by simpa only [length_hexDigits] using escape?_hexDigits hwidth h⟩
  unfold escapeDouble
  cases hletter : escapeLetter? c with
  | some letter =>
    have hread := escape?_of_escapeLetter? hletter
    exact .inr ⟨letter, [], rfl, hread⟩
  | none =>
    by_cases hprintable : isPrintable c = true
    · exact .inl ⟨by simp [hprintable], rfl⟩
    · have hsize : c.toNat < 16 ^ 8 := Nat.lt_of_lt_of_le c.val.toNat_lt_size (by decide)
      simp only [if_neg hprintable]
      right
      split
      · exact hex (by decide) rfl (by omega)
      · split
        · exact hex (by decide) rfl (by omega)
        · exact hex (by decide) rfl hsize

/-- Only spaces stand as they are where white space is escaped. -/
theorem isBlankOrBreak_of_unescaped {c : Char} (hspace : c ≠ ' ')
    (hletter : escapeLetter? c = none) : isBlankOrBreak c = false := by
  refine Bool.eq_false_iff.2 fun h => ?_
  simp only [isBlankOrBreak, isSpaceOrTab, isBreak, Bool.or_eq_true, decide_eq_true_eq] at h
  rcases h with (rfl | rfl) | (((rfl | rfl) | rfl) | rfl) | rfl
  · exact hspace rfl
  all_goals cases hletter

namespace ReadsQuoted

variable {cs after : List Char}

theorem append_escapeDouble {c : Char} {rest : List Char} (hspace : c ≠ ' ')
    (h : ReadsQuoted true rest cs after) :
    Solid (escapeDouble c ++ rest) ∧
      ReadsQuoted true (escapeDouble c ++ rest) (c :: cs) after := by
  rcases escapeDouble_cases c with ⟨heq, hletter⟩ | ⟨letter, more, heq, hbreak, hread⟩
  · have hsolid := isBlankOrBreak_of_unescaped hspace hletter
    rw [heq]
    refine ⟨solid_cons.2 hsolid, h.double_char hsolid ?_ ?_⟩ <;> rintro rfl <;> cases hletter
  · rw [heq]
    exact ⟨solid_cons.2 (by decide), h.escaped hbreak (hread rest)⟩

/-- Text in double quotes reads back. The induction is over the text, and the spaces that were
passed already are still to be read. -/
theorem double (cs after : List Char) :
    ReadsQuoted true (cs.flatMap escapeDouble ++ '"' :: after) cs after := by
  have hgeneral (n : Nat) :
      ReadsQuoted true (spaces n ++ (cs.flatMap escapeDouble ++ '"' :: after))
        (spaces n ++ cs) after := by
    induction cs generalizing n with
    | nil => exact double_end.spaces_append n (solid_cons.2 (by decide))
    | cons c cs ih =>
      rw [List.flatMap_cons, List.append_assoc]
      by_cases hspace : c = ' '
      · subst hspace
        have hshift (cs : List Char) : spaces n ++ ' ' :: cs = spaces (n + 1) ++ cs := by
          simp [spaces, List.replicate_succ']
        have hself : escapeDouble ' ' = [' '] := rfl
        rw [hself, List.singleton_append, hshift, hshift]
        exact ih (n + 1)
      · obtain ⟨hsolid, hread⟩ := (ih 0).append_escapeDouble hspace
        exact hread.spaces_append n hsolid
  exact hgeneral 0

end ReadsQuoted

/-- Text that can stand in single quotes: runs of spaces and of separators never touch. -/
inductive Pieces : List Char → Prop where
  | nil : Pieces []
  | char {c : Char} {cs : List Char} (hc : isBlankOrBreak c = false) (later : Pieces cs) :
    Pieces (c :: cs)
  | blanks (n : Nat) {cs : List Char} (hcs : Solid cs) (later : Pieces cs) :
    Pieces (spaces (n + 1) ++ cs)
  | separators {c : Char} {more cs : List Char} (hc : KeptBreak c) (hfeed : c ≠ '\n')
    (hmore : ∀ c ∈ more, KeptBreak c) (hcs : Solid cs) (later : Pieces cs) :
    Pieces (c :: more ++ cs)

theorem hasPair_cons {p q : Char → Bool} {c : Char} {cs : List Char} :
    hasPair p q (c :: cs) = false ↔
      (∀ d ∈ cs.head?, ¬(p c = true ∧ q d = true)) ∧ hasPair p q cs = false := by
  cases cs with
  | nil => simp [hasPair]
  | cons d cs => simp [hasPair]

namespace Pieces

variable {cs : List Char}

theorem space_cons (h : Pieces cs) (hnext : ∀ d ∈ cs.head?, isBreak d = false) :
    Pieces (' ' :: cs) := by
  cases h with
  | nil => exact .blanks 0 solid_nil .nil
  | char hc later => exact .blanks 0 (solid_cons.2 hc) (.char hc later)
  | blanks n hcs later => exact .blanks (n + 1) hcs later
  | separators hc => exact absurd (hnext _ rfl) (by simp [hc.1])

theorem separator_cons {c : Char} (h : Pieces cs) (hc : KeptBreak c) (hfeed : c ≠ '\n')
    (hnext : ∀ d ∈ cs.head?, d ≠ ' ') : Pieces (c :: cs) := by
  cases h with
  | nil => exact .separators hc hfeed (List.forall_mem_nil _) solid_nil .nil
  | char hd later =>
    exact .separators hc hfeed (List.forall_mem_nil _) (solid_cons.2 hd) (.char hd later)
  | blanks n => exact absurd rfl (hnext ' ' rfl)
  | separators hd _ hmore hcs later =>
    exact .separators hc hfeed (List.forall_mem_cons.2 ⟨hd, hmore⟩) hcs later

theorem of_printable (hprintable : ∀ c ∈ cs, isPrintable c = true) (hfeed : '\n' ∉ cs)
    (hspaceBreak : hasSpaceBreak cs = false) (hbreakSpace : hasBreakSpace cs = false) :
    Pieces cs := by
  induction cs with
  | nil => exact .nil
  | cons c cs ih =>
    obtain ⟨hc, hcs⟩ := List.forall_mem_cons.1 hprintable
    obtain ⟨hnotFeed, hfeeds⟩ := not_or.1 (mt List.mem_cons.2 hfeed)
    obtain ⟨hspaceNext, hspaceBreaks⟩ := hasPair_cons.1 hspaceBreak
    obtain ⟨hbreakNext, hbreakSpaces⟩ := hasPair_cons.1 hbreakSpace
    have hpieces := ih hcs hfeeds hspaceBreaks hbreakSpaces
    by_cases hspace : c = ' '
    · subst hspace
      exact hpieces.space_cons fun d hd => by simpa using hspaceNext d hd
    by_cases hbreak : isBreak c = true
    · exact hpieces.separator_cons ⟨hbreak, hc⟩ (Ne.symm hnotFeed) fun d hd => by
        simpa [hbreak] using hbreakNext d hd
    · have htab : c ≠ '\t' := by
        rintro rfl
        cases hc
      exact .char (by simp [isBlankOrBreak, isSpaceOrTab, hspace, htab, hbreak]) hpieces

end Pieces

section
variable {indent : Nat} {c : Char} {cs : List Char}

theorem escapeSingle_cons (hc : isBlankOrBreak c = false ∨ c = ' ') (hquote : c ≠ '\'') :
    escapeSingle indent (c :: cs) = c :: escapeSingle indent cs := by
  have hbreak : isBreak c = false := by
    rcases hc with hc | rfl
    · exact (Bool.or_eq_false_iff.1 hc).2
    · decide
  rw [escapeSingle]
  · simp [hbreak]
  · exact hquote

theorem escapeSingle_spaces (n : Nat) :
    escapeSingle indent (spaces n ++ cs) = spaces n ++ escapeSingle indent cs := by
  induction n with
  | zero => rfl
  | succ n ih =>
    rw [spaces_succ, List.cons_append, escapeSingle_cons (.inr rfl) (by decide), ih]
    rfl

/-- The indentation stands behind the last separator of a run. -/
theorem escapeSingle_separators {more : List Char} (hc : KeptBreak c)
    (hmore : ∀ c ∈ more, KeptBreak c) (hcs : Solid cs) :
    escapeSingle indent (c :: more ++ cs) =
      c :: more ++ spaces indent ++ escapeSingle indent cs := by
  have hquote {c : Char} (hc : KeptBreak c) : c ≠ '\'' := by
    rintro rfl
    exact absurd hc.1 (by decide)
  induction more generalizing c with
  | nil =>
    have hlast : cs.head?.any isBreak = false := by
      cases cs with
      | nil => rfl
      | cons d cs => exact (Bool.or_eq_false_iff.1 (solid_cons.1 hcs)).2
    rw [List.cons_append, List.nil_append, escapeSingle]
    · simp [hc.1, hlast, spaces]
    · exact hquote hc
  | cons d more ih =>
    obtain ⟨hd, hmore⟩ := List.forall_mem_cons.1 hmore
    have hgo : escapeSingle indent (c :: (d :: more ++ cs)) =
        c :: escapeSingle indent (d :: more ++ cs) := by
      rw [escapeSingle]
      · simp [hd.1]
      · exact hquote hc
    rw [List.cons_append, hgo, ih hd hmore]
    rfl

theorem solid_escapeSingle (h : Solid cs) (after : List Char) :
    Solid (escapeSingle indent cs ++ '\'' :: after) := by
  cases cs with
  | nil => exact solid_cons.2 (by decide)
  | cons c cs =>
    by_cases hquote : c = '\''
    · subst hquote
      exact solid_cons.2 (by decide)
    · rw [escapeSingle_cons (.inl (solid_cons.1 h)) hquote]
      exact solid_cons.2 (solid_cons.1 h)

end

namespace ReadsQuoted

/-- Text in single quotes reads back. -/
theorem single {indent : Nat} (hindent : indent ≠ 0) {cs after : List Char} (h : Pieces cs)
    (hafter : after.head? ≠ some '\'') :
    ReadsQuoted false (escapeSingle indent cs ++ '\'' :: after) cs after := by
  induction h with
  | nil => exact single_end hafter
  | @char c cs hc later ih =>
    by_cases hquote : c = '\''
    · subst hquote
      exact ih.apostrophe
    · rw [escapeSingle_cons (.inl hc) hquote]
      exact ih.single_char hc hquote
  | blanks n hcs later ih =>
    rw [escapeSingle_spaces, List.append_assoc]
    exact ih.spaces_append _ (solid_escapeSingle hcs after)
  | separators hc hfeed hmore hcs later ih =>
    rw [escapeSingle_separators hc hmore hcs, List.append_assoc]
    exact ih.lines_append hc hfeed hmore hindent (solid_escapeSingle hcs after)

end ReadsQuoted

end GuidedDataflow.Yaml
