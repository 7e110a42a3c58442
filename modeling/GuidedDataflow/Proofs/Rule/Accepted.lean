import GuidedDataflow.Proofs.Rule.Spelling

/-!
The texts that are accepted as compact rules. Reading is inverted step by step, from the
outline over the markers to the checks that follow: a text is accepted if and only if it
spells an admissible rule, and then the group kept is that rule's.
-/

namespace GuidedDataflow

open Text

namespace RuleShape

variable {o : RuleShape (List Char)} {cs : List Char}

theorem padded_of_inner? {inner : List Char} (h : RuleOutline.inner? cs = some inner) :
    Padded ('<' :: (inner ++ ['>'])) cs := by
  have hpadded := padded_trim cs
  unfold RuleOutline.inner? at h
  split at h
  · next rest htrim =>
    rw [htrim] at hpadded
    split at h
    · next hlast =>
      obtain ⟨inner', rfl⟩ := List.getLast?_eq_some_iff.1 hlast
      rw [List.dropLast_concat, Option.some.injEq] at h
      exact h ▸ hpadded
    · cases h
  · cases h

/-- What stands before the first space of a text that does not begin with a blank is a token
with at most blanks behind it. -/
theorem exists_blanks_behind {word rest : List Char}
    (h : ∀ c ∈ (word ++ ' ' :: rest).head?, isBlank c = false) :
    trim word ≠ [] ∧ ∃ after, Blanks after ∧ word = trim word ++ after := by
  obtain ⟨before, after, hbefore, hafter, hword⟩ := padded_trim word
  obtain rfl : before = [] := by
    cases before with
    | nil => rfl
    | cons c before =>
      have hc := h c (by rw [hword]; rfl)
      rw [hbefore c List.mem_cons_self] at hc
      cases hc
  refine ⟨fun hnil => ?_, after, hafter, hword⟩
  have hblanks := trim_eq_nil.1 hnil
  cases word with
  | nil => exact absurd (h ' ' rfl) (by decide)
  | cons c word =>
    have hc := h c rfl
    rw [hblanks c List.mem_cons_self] at hc
    cases hc

theorem spellsParams_parameters (cs : List Char) :
    SpellsParams (RuleOutline.parameters cs) cs := by
  have hjoin := spellsParams_map padded_trim (splitAll ',' cs)
  rw [joinWith_splitAll] at hjoin
  unfold RuleOutline.parameters
  split
  · next htrim => exact .none (trim_eq_nil.1 htrim)
  · have hpieces : (splitAll ',' (trim cs)).map trim = (splitAll ',' cs).map trim :=
      trimmedPieces_trim rfl cs
    rwa [hpieces]

theorem mem_parameters {t : List Char} (h : t ∈ RuleOutline.parameters cs) :
    Trimmed t ∧ ',' ∉ t := by
  unfold RuleOutline.parameters at h
  split at h
  · exact absurd h List.not_mem_nil
  · obtain ⟨piece, hpiece, rfl⟩ := List.mem_map.1 h
    exact ⟨trimmed_trim piece, fun hc => not_mem_of_mem_splitAll hpiece (mem_of_mem_trim hc)⟩

theorem parameters_ne_singleton_nil (cs : List Char) : RuleOutline.parameters cs ≠ [[]] := by
  unfold RuleOutline.parameters
  split
  · exact nofun
  · next hne =>
    intro hlist
    obtain ⟨piece, hpiece, htrim⟩ := List.map_eq_singleton_iff.1 hlist
    have hcs := joinWith_splitAll ',' (trim cs)
    rw [hpiece, joinWith] at hcs
    rw [hcs, trim_trim] at htrim
    exact hne htrim

/-- The cuts that reading makes, each at the first place of its separator. -/
theorem cuts_of_read (h : RuleOutline.read cs = .ok o) : ∃ owner rest result name params,
    RuleOutline.inner? cs = some (owner ++ ':' :: rest) ∧ ':' ∉ owner ∧
      trimLeft rest = result ++ ' ' :: (name ++ '(' :: (params ++ [')'])) ∧ ' ' ∉ result ∧
      '(' ∉ name ∧ trim name ≠ [] ∧
      o = ⟨trim owner, trim result, trim name, RuleOutline.parameters params⟩ := by
  unfold RuleOutline.read at h
  split at h
  · cases h
  next inner hinner =>
  split at h
  · cases h
  next owner rest hcolon =>
  split at h
  · cases h
  next result call hspace =>
  split at h
  · cases h
  next name list hopen =>
  split at h
  · cases h
  next hclose =>
  split at h
  · cases h
  next hname =>
  obtain ⟨params, rfl⟩ := List.getLast?_eq_some_iff.1 (Decidable.not_not.1 hclose)
  obtain ⟨rfl, howner⟩ := eq_of_splitOnce? hcolon
  obtain ⟨hrest, hresult⟩ := eq_of_splitOnce? hspace
  obtain ⟨rfl, hparen⟩ := eq_of_splitOnce? hopen
  rw [List.dropLast_concat] at h
  exact ⟨owner, rest, result, name, params, hinner, howner, hrest, hresult, hparen,
    fun hnil => hname (List.isEmpty_iff.2 hnil), (Except.ok.inj h).symm⟩

/-- What is read is spelled by the text and can be found again. -/
theorem spells_of_read (h : RuleOutline.read cs = .ok o) : o.Spells cs ∧ o.Readable := by
  obtain ⟨owner, rest, result, name, params, hinner, howner, hrest, hresult, hparen, hname, rfl⟩ :=
    cuts_of_read h
  have hhead : ∀ c ∈ (trimLeft rest).head?, isBlank c = false := head?_dropWhile_false
  rw [hrest] at hhead
  obtain ⟨hword, behind, hbehind, hsplit⟩ := exists_blanks_behind hhead
  constructor
  · obtain ⟨before, after, hbefore, hafter, hcs⟩ := padded_of_inner? hinner
    obtain ⟨gap, trail, hgap, htrail, hcall⟩ := padded_trim name
    obtain ⟨lead, hlead, hdrop⟩ : ∃ lead, Blanks lead ∧ rest = lead ++ trimLeft rest :=
      ⟨_, blanks_takeWhile rest, List.takeWhile_append_dropWhile.symm⟩
    have htext : rest = lead ++ (trim result ++ behind ++ ' ' ::
        (gap ++ trim name ++ trail ++ '(' :: (params ++ [')']))) := by
      rw [← hsplit, ← hcall, ← hrest]
      exact hdrop
    refine .parts hbefore (padded_trim owner) hlead (hbehind.append (.cons rfl hgap))
      (List.mem_append_right _ List.mem_cons_self) htrail (spellsParams_parameters params) hafter ?_
    rw [hcs, htext]
    simp only [List.append_assoc, List.cons_append, List.nil_append]
  · refine ⟨trimmed_trim owner, fun hc => howner (mem_of_mem_trim hc), ?_, ?_, ?_, ?_, ?_⟩
    · exact ⟨hword, trimmed_trim result, fun hc => hresult (mem_of_mem_trim hc)⟩
    · exact ⟨hname, trimmed_trim name, fun hc => hparen (mem_of_mem_trim hc)⟩
    · exact fun t ht => (mem_parameters ht).1
    · exact fun t ht => (mem_parameters ht).2
    · exact parameters_ne_singleton_nil params

theorem read_eq_ok_iff : RuleOutline.read cs = .ok o ↔ o.Spells cs ∧ o.Readable :=
  ⟨spells_of_read, fun ⟨hspells, hreadable⟩ => read_of_spells hreadable hspells⟩

end RuleShape

namespace Marker

theorem chars_of_ofChars? {cs : List Char} {m : Marker} (h : ofChars? cs = some m) :
    m.chars = cs := by
  simpa using List.find?_some h

theorem takeAll_append (cs : List Char) :
    (takeAll cs).1.flatMap chars ++ (takeAll cs).2 = cs := by
  induction cs using takeAll.induct with
  | case1 a b c d e rest m hm ms bare hrest ih =>
    have hchars := chars_of_ofChars? hm
    simp only [takeAll, hm, List.flatMap_cons, List.append_assoc, ih, hchars]
    rfl
  | case2 a b c d e rest hm =>
    simp only [takeAll, hm]
    rfl
  | case3 cs hshort =>
    rw [takeAll.eq_2 cs hshort]
    rfl

theorem unmarked_of_unknown? {cs : List Char} (h : unknown? cs = none) : Unmarked cs := by
  unfold unknown? at h
  split at h
  · cases h
  · next hlead =>
    rw [Bool.or_eq_true, not_or, List.isPrefixOf_iff_prefix, List.isPrefixOf_iff_prefix] at hlead
    exact hlead

end Marker

/-- A computation that succeeds has succeeded in its first part. -/
theorem exists_of_bind_eq_ok {ε α β : Type} {x : Except ε α} {f : α → Except ε β} {b : β}
    (h : x >>= f = .ok b) : ∃ a, x = .ok a ∧ f a = .ok b := by
  cases x with
  | error e => cases h
  | ok a => exact ⟨a, rfl, h⟩

/-- Of a type all markers are read, up to where no further one begins. -/
theorem MarkedType.read_eq_ok_iff {cs : List Char} {t : MarkedType} :
    read cs = .ok t ↔ cs = t.write ∧ Unmarked t.bare := by
  constructor
  · intro h
    have hsplit := Marker.takeAll_append cs
    obtain ⟨ms, bare, htake⟩ : ∃ ms bare, Marker.takeAll cs = (ms, bare) := ⟨_, _, rfl⟩
    rw [htake] at hsplit
    unfold read at h
    cases hunknown : Marker.unknown? bare with
    | some marker =>
      simp only [htake, hunknown] at h
      cases h
    | none =>
      simp only [htake, hunknown] at h
      obtain rfl := Except.ok.inj h
      exact ⟨hsplit.symm, Marker.unmarked_of_unknown? hunknown⟩
  · rintro ⟨rfl, hunmarked⟩
    exact read_write hunmarked

namespace CompactRule

variable {r : CompactRule} {o : RuleOutline}

theorem map_write_of_mapM_read {texts : List (List Char)} {ts : List MarkedType}
    (h : texts.mapM MarkedType.read = .ok ts) :
    texts = ts.map MarkedType.write ∧ ∀ t ∈ ts, Unmarked t.bare := by
  induction texts generalizing ts with
  | nil =>
    obtain rfl := Except.ok.inj h
    exact ⟨rfl, fun _ ht => absurd ht List.not_mem_nil⟩
  | cons cs texts ih =>
    rw [List.mapM_cons] at h
    obtain ⟨t, hread, h⟩ := exists_of_bind_eq_ok h
    obtain ⟨rest, hrest, h⟩ := exists_of_bind_eq_ok h
    obtain rfl := Except.ok.inj h
    obtain ⟨rfl, hunmarked⟩ := MarkedType.read_eq_ok_iff.1 hread
    obtain ⟨rfl, hlater⟩ := ih hrest
    exact ⟨rfl, List.forall_mem_cons.2 ⟨hunmarked, hlater⟩⟩

theorem eq_map_write_of_ofOutline (h : ofOutline o = .ok r) : o = r.map MarkedType.write ∧
    Unmarked r.owner.bare ∧ Unmarked r.result.bare ∧ ∀ t ∈ r.params, Unmarked t.bare := by
  obtain ⟨owner, result, name, params⟩ := o
  unfold ofOutline at h
  obtain ⟨owner', howner, h⟩ := exists_of_bind_eq_ok h
  obtain ⟨result', hresult, h⟩ := exists_of_bind_eq_ok h
  obtain ⟨params', hparams, h⟩ := exists_of_bind_eq_ok h
  obtain rfl := Except.ok.inj h
  obtain ⟨rfl, hownerBare⟩ := MarkedType.read_eq_ok_iff.1 howner
  obtain ⟨rfl, hresultBare⟩ := MarkedType.read_eq_ok_iff.1 hresult
  obtain ⟨rfl, hparamsBare⟩ := map_write_of_mapM_read hparams
  exact ⟨rfl, hownerBare, hresultBare, hparamsBare⟩

end CompactRule

/-- A text is accepted if and only if it spells an admissible rule, and the group is its. -/
theorem RuleGroup.ofCompact_eq_ok_iff {rule : String} {g : RuleGroup} :
    ofCompact rule = .ok g ↔ ∃ r : CompactRule,
      r.Admissible ∧ (r.map MarkedType.write).Spells rule.toList ∧ g = r.group := by
  constructor
  · intro h
    unfold ofCompact at h
    split at h
    · cases h
    next outline hread =>
    split at h
    · cases h
    next r houtline =>
    split at h
    · cases h
    next hbare =>
    split at h
    · cases h
    next htrigger =>
    obtain rfl := Except.ok.inj h
    obtain ⟨rfl, howner, hresult, hparams⟩ := CompactRule.eq_map_write_of_ofOutline houtline
    obtain ⟨hspells, hreadable⟩ := RuleShape.read_eq_ok_iff.1 hread
    rw [Bool.or_eq_true, List.isEmpty_iff, List.isEmpty_iff, not_or] at hbare
    exact ⟨r, ⟨hreadable, howner, hbare.1, hresult, hbare.2, hparams,
      CompactRule.isEmpty_on.1 (Bool.eq_false_iff.2 htrigger)⟩, hspells, rfl⟩
  · rintro ⟨r, hadmissible, hspells, rfl⟩
    exact ofCompact_of_admissible hadmissible hspells

end GuidedDataflow
