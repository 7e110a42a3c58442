import GuidedDataflow.Proofs.Document.Yaml.Gap

/-!
Plain scalars read back. Text that may be written plain is a sequence of words with runs of spaces
between them, no word ends with a colon and none behind a space begins with a hash, so reading
goes on to the end of the text. There it stops at the colon of a key, or behind a line end where
the next line is not indented further than the collection.
-/

namespace GuidedDataflow.Yaml

/-- Text that is not written in double quotes. -/
theorem printable_of_style {cs : List Char} (h : styleOf cs ≠ .double) :
    (∀ c ∈ cs, isPrintable c = true) ∧ hasSpaceBreak cs = false := by
  rw [styleOf] at h
  split at h
  · exact absurd rfl h
  · rename_i hstyle
    simpa using hstyle

theorem allowsPlain_of_style {cs : List Char} (h : styleOf cs = .plain) :
    needsQuotes cs = false ∧ allowsPlain cs = true := by
  simp only [styleOf] at h
  split at h
  · cases h
  split at h
  · split at h <;> cases h
  split at h
  · cases h
  split at h
  · rename_i hplain
    simpa using hplain
  · cases h

/-- Text that is written as it is. -/
structure PlainText (cs : List Char) : Prop where
  ne_nil : cs ≠ []
  allowed : allowsPlain cs = true
  printable : ∀ c ∈ cs, isPrintable c = true

/-- Text without blanks in which no colon could end a key. -/
structure PlainWord (w : List Char) : Prop where
  ne_nil : w ≠ []
  solid : ∀ c ∈ w, isBlankOrBreak c = false
  inner : hasInnerIndicator w = false

inductive Words : List Char → Prop where
  | last {w : List Char} (word : PlainWord w) : Words w
  | more {w cs : List Char} (word : PlainWord w) (n : Nat) (hash : cs.head? ≠ some '#')
      (later : Words cs) : Words (w ++ spaces (n + 1) ++ cs)

theorem startsBlank_append {w : List Char} (hne : w ≠ []) (cs : List Char) :
    startsBlank (w ++ cs) = startsBlank w := by
  cases w with
  | nil => exact absurd rfl hne
  | cons c w => rfl

theorem hasInnerIndicator_cons {c : Char} {cs : List Char} :
    hasInnerIndicator (c :: cs) = false ↔
      ¬(c = ':' ∧ startsBlank cs = true) ∧ ¬(isBlankOrBreak c = true ∧ cs.head? = some '#') ∧
        hasInnerIndicator cs = false := by
  simp [hasInnerIndicator, and_assoc]

namespace PlainWord

theorem singleton {c : Char} (hc : isBlankOrBreak c = false) (hcolon : c ≠ ':') :
    PlainWord [c] where
  ne_nil := List.cons_ne_nil _ _
  solid := by simpa using hc
  inner := hasInnerIndicator_cons.2 ⟨fun h => hcolon h.1, by simp [hc], rfl⟩

theorem cons {c : Char} {w : List Char} (hw : PlainWord w) (hc : isBlankOrBreak c = false)
    (hcolon : ¬(c = ':' ∧ startsBlank w = true)) : PlainWord (c :: w) where
  ne_nil := List.cons_ne_nil _ _
  solid := List.forall_mem_cons.2 ⟨hc, hw.solid⟩
  inner := hasInnerIndicator_cons.2 ⟨hcolon, by simp [hc], hw.inner⟩

end PlainWord

namespace Words

variable {cs : List Char}

/-- A character in front becomes part of the first word. -/
theorem cons {c : Char} (h : Words cs) (hc : isBlankOrBreak c = false)
    (hcolon : ¬(c = ':' ∧ startsBlank cs = true)) : Words (c :: cs) := by
  cases h with
  | last word => exact .last (word.cons hc hcolon)
  | more word n hash later =>
    rw [List.append_assoc, startsBlank_append word.ne_nil] at hcolon
    exact .more (word.cons hc hcolon) n hash later

/-- Text that does not end with a space is words behind some spaces. -/
theorem exists_of_inner (hne : cs ≠ []) (hsolid : ∀ c ∈ cs, isBlankOrBreak c = true → c = ' ')
    (hlast : cs.getLast? ≠ some ' ') (hinner : hasInnerIndicator cs = false) :
    ∃ n later, cs = spaces n ++ later ∧ Words later ∧ (n ≠ 0 → later.head? ≠ some '#') := by
  induction cs with
  | nil => exact absurd rfl hne
  | cons c cs ih =>
    obtain ⟨hc, hcs⟩ := List.forall_mem_cons.1 hsolid
    obtain ⟨hcolon, hhash, hrest⟩ := hasInnerIndicator_cons.1 hinner
    have hblank : c ≠ ' ' → isBlankOrBreak c = false :=
      fun hspace => Bool.eq_false_iff.2 fun h => hspace (hc h)
    cases cs with
    | nil =>
      have hspace : c ≠ ' ' := by simpa using hlast
      have hword : PlainWord [c] := .singleton (hblank hspace) fun h => hcolon ⟨h, rfl⟩
      exact ⟨0, [c], rfl, .last hword, fun h => absurd rfl h⟩
    | cons d cs =>
      rw [List.getLast?_cons_cons] at hlast
      obtain ⟨n, later, heq, hlater, hafter⟩ := ih (List.cons_ne_nil _ _) hcs hlast hrest
      rw [heq] at hcolon hhash ⊢
      by_cases hspace : c = ' '
      · subst hspace
        refine ⟨n + 1, later, rfl, hlater, fun _ => ?_⟩
        cases n with
        | zero => exact fun h => hhash ⟨rfl, h⟩
        | succ n => exact hafter n.succ_ne_zero
      · cases n with
        | zero => exact ⟨0, c :: later, rfl, hlater.cons (hblank hspace) hcolon, absurd rfl⟩
        | succ n =>
          have hword : PlainWord [c] := .singleton (hblank hspace) fun h => hcolon ⟨h, rfl⟩
          exact ⟨0, _, rfl, .more hword n (hafter n.succ_ne_zero) hlater, absurd rfl⟩

theorem solid_append (h : Words cs) (after : List Char) : Solid (cs ++ after) := by
  have hword {w : List Char} (hw : PlainWord w) (after : List Char) : Solid (w ++ after) := by
    obtain ⟨c, w, rfl⟩ := List.exists_cons_of_ne_nil hw.ne_nil
    exact solid_cons.2 (hw.solid c (List.mem_cons_self ..))
  cases h with
  | last word => exact hword word after
  | more word =>
    rw [List.append_assoc, List.append_assoc]
    exact hword word _

end Words

namespace PlainText

variable {cs : List Char}

theorem not_startsWithIndicator (h : PlainText cs) : startsWithIndicator cs = false := by
  have hallowed := h.allowed
  simp only [allowsPlain, Bool.not_eq_true', Bool.or_eq_false_iff] at hallowed
  exact hallowed.1.2

theorem head_ne_hash (h : PlainText cs) : cs.head? ≠ some '#' := by
  intro hhead
  obtain ⟨rest, rfl⟩ := List.head?_eq_some_iff.1 hhead
  cases h.not_startsWithIndicator

theorem words (h : PlainText cs) : Words cs := by
  have hallowed := h.allowed
  simp only [allowsPlain, Bool.not_eq_true', Bool.or_eq_false_iff] at hallowed
  obtain ⟨⟨⟨⟨hhead, hlast⟩, hbreak⟩, -⟩, hinner⟩ := hallowed
  have hspace (c : Char) (hc : c ∈ cs) (hblank : isBlankOrBreak c = true) : c = ' ' := by
    have hprintable := h.printable c hc
    have hnotBreak := List.any_eq_false.1 hbreak c hc
    simp only [isBlankOrBreak, hnotBreak, isSpaceOrTab, Bool.or_false, Bool.or_eq_true,
      decide_eq_true_eq] at hblank
    exact hblank.resolve_right fun htab => absurd (htab ▸ hprintable) (by decide)
  have hends : cs.getLast? ≠ some ' ' := fun hlast' => by simp [hlast'] at hlast
  obtain ⟨n, later, rfl, hwords, -⟩ := Words.exists_of_inner h.ne_nil hspace hends hinner
  cases n with
  | zero => exact hwords
  | succ n => simp [spaces_succ] at hhead

theorem of_style (h : styleOf cs = .plain) : PlainText cs := by
  have hne : cs ≠ [] := by
    rintro rfl
    cases h
  exact ⟨hne, (allowsPlain_of_style h).2, (printable_of_style (by simp [h])).1⟩

end PlainText

/-- A key of letters that is written as it is. -/
structure FieldName (k : List Char) : Prop where
  style : styleOf k = .plain
  letters : ∀ c ∈ k, c.isAlpha = true ∨ c = '_'
  short : k.length ≤ 1024

theorem FieldName.word {k : List Char} (hk : FieldName k) : PlainWord k where
  ne_nil := (PlainText.of_style hk.style).ne_nil
  solid := fun c hc => by
    refine Bool.eq_false_iff.2 fun hblank => ?_
    simp only [isBlankOrBreak, isSpaceOrTab, isBreak, Bool.or_eq_true, decide_eq_true_eq] at hblank
    have hletter := hk.letters c hc
    rcases hblank with (rfl | rfl) | (((rfl | rfl) | rfl) | rfl) | rfl <;>
      exact absurd hletter (by decide)
  inner := by
    have hallowed := (PlainText.of_style hk.style).allowed
    simp only [allowsPlain, Bool.not_eq_true', Bool.or_eq_false_iff] at hallowed
    exact hallowed.2

/-- What may come behind the last word: a blank, the end, or the colon of a key. -/
def EndsWord (cs : List Char) : Prop :=
  startsBlank cs = true ∨ ∃ after, cs = ':' :: after ∧ startsBlank after = true

theorem plainWord?_append {w after : List Char} (hsolid : ∀ c ∈ w, isBlankOrBreak c = false)
    (hinner : hasInnerIndicator w = false) (h : EndsWord after) :
    plainWord? false (w ++ after) = some w := by
  induction w with
  | nil =>
    cases after with
    | nil => rfl
    | cons c after =>
      rcases h with hblank | ⟨cs, heq, hblank⟩
      · exact if_pos hblank
      · obtain ⟨rfl, rfl⟩ := List.cons.inj heq
        simp [plainWord?, hblank]
  | cons c w ih =>
    obtain ⟨hc, hw⟩ := List.forall_mem_cons.1 hsolid
    rw [List.cons_append, plainWord?, ih hw (hasInnerIndicator_cons.1 hinner).2.2, hc]
    by_cases hcolon : c = ':'
    · subst hcolon
      have hfollowed : startsBlank w = false := by
        simpa using (hasInnerIndicator_cons.1 hinner).1
      have hne : w ≠ [] := by
        rintro rfl
        cases hfollowed
      simp [startsBlank_append hne, hfollowed]
    · simp [hcolon]

section
variable {rest text w : List Char} {index line column indent fuel : Nat} {gap : Gap}

/-- Where no comment or marker begins, the word here is added to the text. -/
theorem scanPlain?_word (hw : PlainWord w) {after : List Char} (hafter : EndsWord after)
    (hmarker : Source.atDocumentMarker ⟨w ++ after, index, line, column⟩ = false)
    (hhash : w.head? ≠ some '#') :
    scanPlain? false indent (fuel + 1) ⟨w ++ after, index, line, column⟩ text gap =
      let s : Source := ⟨after, index + w.length, line, column + w.length⟩
      match s.rest with
      | [] => some ⟨text ++ gap.fold ++ w, s, false⟩
      | c :: _ =>
        if isBlankOrBreak c then
          (Gap.empty.scan? indent (s.rest.length + 1) s).bind fun (space, s) =>
            if s.column < indent then some ⟨text ++ gap.fold ++ w, s, space.broken⟩
            else scanPlain? false indent fuel s (text ++ gap.fold ++ w) space
        else some ⟨text ++ gap.fold ++ w, s, false⟩ := by
  have hstart : (w ++ after).head? ≠ some '#' := by
    obtain ⟨c, w, rfl⟩ := List.exists_cons_of_ne_nil hw.ne_nil
    exact hhash
  have hne : w.isEmpty = false := List.isEmpty_eq_false_iff.2 hw.ne_nil
  rw [scanPlain?]
  simp only [hmarker, hstart, decide_false, Bool.false_or, Bool.false_eq_true, if_false,
    plainWord?_append hw.solid hw.inner hafter, Option.bind_eq_bind, Option.bind_some, hne,
    Source.advance, List.drop_left, Bool.not_false, Bool.true_and, decide_eq_true_eq]
  rfl

/-- The colon of a key ends the text. -/
theorem scanPlain?_colon (hw : PlainWord w) {after : List Char} (hafter : startsBlank after = true)
    (hmarker : Source.atDocumentMarker ⟨w ++ ':' :: after, index, line, column⟩ = false)
    (hhash : w.head? ≠ some '#') :
    scanPlain? false indent (fuel + 1) ⟨w ++ ':' :: after, index, line, column⟩ text gap =
      some ⟨text ++ gap.fold ++ w, ⟨':' :: after, index + w.length, line, column + w.length⟩,
        false⟩ := by
  rw [scanPlain?_word hw (.inr ⟨after, rfl, hafter⟩) hmarker hhash]
  rfl

/-- A line end ends the text, if the next line is not indented far enough. -/
theorem scanPlain?_lineEnd (hw : PlainWord w) {m : Nat} (hm : m < indent) (hrest : Solid rest)
    (hcolumn : column ≠ 0) (hhash : w.head? ≠ some '#') :
    scanPlain? false indent (fuel + 1) ⟨w ++ '\n' :: (spaces m ++ rest), index, line, column⟩ text
        gap =
      some ⟨text ++ gap.fold ++ w, ⟨rest, index + w.length + 1 + m, line + 1, m⟩, true⟩ := by
  have hgap : Gap.empty.scan? indent (('\n' :: (spaces m ++ rest)).length + 1)
      ⟨'\n' :: (spaces m ++ rest), index + w.length, line, column + w.length⟩ = _ :=
    Gap.scan?_lines (keptBreak_iff.2 (.inl rfl)) (List.forall_mem_nil _) m hrest
  rw [scanPlain?_word hw (.inl rfl) (atDocumentMarker_of_pos hcolumn) hhash]
  simp only [hgap]
  simp [hm, isBlankOrBreak, isBreak, Gap.broken]

/-- Spaces and another word go on with the text. -/
theorem scanPlain?_space (hw : PlainWord w) {n : Nat} (hrest : Solid rest)
    (hindent : indent ≤ column + w.length + (n + 1)) (hcolumn : column ≠ 0)
    (hhash : w.head? ≠ some '#') :
    scanPlain? false indent (fuel + 1) ⟨w ++ (spaces (n + 1) ++ rest), index, line, column⟩ text
        gap =
      scanPlain? false indent fuel
        ⟨rest, index + w.length + (n + 1), line, column + w.length + (n + 1)⟩
        (text ++ gap.fold ++ w) ⟨spaces (n + 1), none, []⟩ := by
  have hgap : Gap.empty.scan? indent ((spaces (n + 1) ++ rest).length + 1)
      ⟨spaces (n + 1) ++ rest, index + w.length, line, column + w.length⟩ = _ :=
    Gap.scan?_run (n + 1) hrest
  rw [scanPlain?_word hw (.inl rfl) (atDocumentMarker_of_pos hcolumn) hhash]
  simp only [hgap]
  simp [Nat.not_lt.2 hindent, isBlankOrBreak, isSpaceOrTab, spaces_succ]

/-- Words on one line are read to the line end. -/
theorem scanPlain?_words {cs : List Char} (h : Words cs) (hhash : cs.head? ≠ some '#') {m : Nat}
    (hm : m < indent) (hrest : Solid rest) (hindent : indent ≤ column) (hfuel : cs.length ≤ fuel) :
    scanPlain? false indent fuel ⟨cs ++ '\n' :: (spaces m ++ rest), index, line, column⟩ text gap =
      some ⟨text ++ gap.fold ++ cs, ⟨rest, index + cs.length + 1 + m, line + 1, m⟩, true⟩ := by
  induction h generalizing index column fuel text gap with
  | @last w word =>
    have hpos := List.length_pos_iff.2 word.ne_nil
    obtain ⟨fuel, rfl⟩ := Nat.exists_eq_add_one.2 (Nat.lt_of_lt_of_le hpos hfuel)
    rw [scanPlain?_lineEnd word hm hrest (by omega) hhash]
  | @more w cs word n hafter later ih =>
    have hpos := List.length_pos_iff.2 word.ne_nil
    have hlength : (w ++ spaces (n + 1) ++ cs).length = w.length + (n + 1) + cs.length := by
      simp [length_spaces, Nat.add_assoc]
    have hstart : w.head? ≠ some '#' := by
      obtain ⟨c, w, rfl⟩ := List.exists_cons_of_ne_nil word.ne_nil
      exact hhash
    have hsolid : Solid (cs ++ '\n' :: (spaces m ++ rest)) := later.solid_append _
    rw [hlength] at hfuel ⊢
    obtain ⟨fuel, rfl⟩ := Nat.exists_eq_add_one.2 (show 0 < fuel by omega)
    rw [List.append_assoc, List.append_assoc, scanPlain?_space word hsolid (by omega) (by omega)
      hstart, ih hafter (by omega) (by omega)]
    simp [Gap.fold, Nat.add_assoc, List.append_assoc]

end

end GuidedDataflow.Yaml
