import GuidedDataflow.Proofs.Rule.Accepted

/-!
What taking the markers off leaves in the signature of an accepted rule. The texts between the
separators are trimmed before their markers are taken off and not again afterwards. So a type
keeps the blanks that its rule has between the markers and the type, with any further marker
behind those blanks; the name is not looked at for markers; and a parameter that is nothing but
markers leaves an empty type. Apart from these the signature is plain, its types are not
empty and its selectors name its own parameters.
-/

namespace GuidedDataflow

open Text

/-- A part of a signature that a call can have: without blanks around it, and without a marker. -/
structure Plain (cs : List Char) : Prop where
  trimmed : Trimmed cs
  unmarked : Unmarked cs

/-- The text begins with markers that have a blank directly behind them. -/
def Gapped (cs : List Char) : Prop :=
  ∃ ms c rest, ms ≠ [] ∧ isBlank c = true ∧ cs = ms.flatMap Marker.chars ++ c :: rest

theorem unmarked_of_blank {c : Char} (hc : isBlank c = true) (cs : List Char) :
    Unmarked (c :: cs) := by
  constructor
  · intro hprefix
    obtain rfl := (List.cons_prefix_cons.1 hprefix).1
    cases hc
  · intro hprefix
    obtain rfl := (List.cons_prefix_cons.1 hprefix).1
    cases hc

namespace MarkedType

variable {t : MarkedType}

/-- Behind its markers a type ends as the text does. -/
theorem getLast?_bare (h : Trimmed t.write) : ∀ c ∈ t.bare.getLast?, isBlank c = false := by
  intro c hc
  refine h.2 c ?_
  rw [write, List.getLast?_append, hc]
  rfl

theorem trim_bare_eq_nil (h : Trimmed t.write) : trim t.bare = [] ↔ t.bare = [] := by
  refine ⟨fun hnil => ?_, fun hnil => by rw [hnil]; rfl⟩
  cases hlast : t.bare.getLast? with
  | none => exact List.getLast?_eq_none_iff.1 hlast
  | some c =>
    have hblank := trim_eq_nil.1 hnil c (List.mem_of_getLast? hlast)
    rw [getLast?_bare h c hlast] at hblank
    cases hblank

theorem trimmed_bare_iff (h : Trimmed t.write) (hunmarked : Unmarked t.bare) :
    Trimmed t.bare ↔ ¬ Gapped t.write := by
  constructor
  · rintro htrimmed ⟨ms, c, rest, hms, hc, htext⟩
    -- the markers that are read end in front of the blank
    have hread := Marker.takeAll_flatMap_chars hunmarked t.markers
    have htext' := Marker.takeAll_flatMap_chars (unmarked_of_blank hc rest) ms
    rw [← htext, write, hread, Prod.mk.injEq] at htext'
    have hfirst := htrimmed.1 c (by rw [htext'.2]; rfl)
    rw [hc] at hfirst
    cases hfirst
  · intro hgap
    refine ⟨fun c hc => ?_, getLast?_bare h⟩
    obtain ⟨rest, hbare⟩ := List.head?_eq_some_iff.1 hc
    cases hblank : isBlank c with
    | false => rfl
    | true =>
      cases hmarkers : t.markers with
      | nil =>
        have hfirst := h.1 c (by rw [write, hmarkers, hbare]; rfl)
        rw [hblank] at hfirst
        cases hfirst
      | cons m ms =>
        refine absurd ⟨t.markers, c, rest, ?_, hblank, ?_⟩ hgap
        · rw [hmarkers]
          exact List.cons_ne_nil m ms
        · rw [write, hbare]

end MarkedType

/-- The class, the return type and the parameters. -/
def RuleShape.types {τ : Type} (r : RuleShape τ) : List τ := r.owner :: r.result :: r.params

namespace CompactRule.Admissible

variable {r : CompactRule} (h : r.Admissible)
include h

theorem unmarked : ∀ t ∈ r.types, Unmarked t.bare := by
  intro t ht
  obtain rfl | ht := List.mem_cons.1 ht
  · exact h.owner
  obtain rfl | ht := List.mem_cons.1 ht
  · exact h.result
  · exact h.params t ht

theorem trimmed_write : ∀ t ∈ r.types, Trimmed t.write := by
  intro t ht
  obtain rfl | ht := List.mem_cons.1 ht
  · exact h.readable.owner
  obtain rfl | ht := List.mem_cons.1 ht
  · exact h.readable.result.trimmed
  · exact h.readable.params _ (List.mem_map_of_mem ht)

end CompactRule.Admissible

namespace RuleGroup

/-- The parts of an accepted rule's signature. No type begins like a marker or ends with a
blank, and the name is trimmed. All parts are plain if and only if no type of the rule has a
blank directly behind its markers and the name does not begin like a marker. -/
theorem ofCompact_plain_iff {rule : String} {g : RuleGroup} (h : ofCompact rule = .ok g) :
    ∃ r : CompactRule, r.Admissible ∧ (r.map MarkedType.write).Spells rule.toList ∧
      g.signature.text = String.ofList (RuleShape.write (r.map MarkedType.bare)) ∧
      (∀ t ∈ r.types, Unmarked t.bare ∧ ∀ c ∈ t.bare.getLast?, isBlank c = false) ∧
      Trimmed r.name ∧
      (((∀ t ∈ r.types, Plain t.bare) ∧ Plain r.name) ↔
        (∀ t ∈ r.types, ¬ Gapped t.write) ∧ Unmarked r.name) := by
  obtain ⟨r, hr, hspells, rfl⟩ := ofCompact_eq_ok_iff.1 h
  have hname : Trimmed r.name := hr.readable.name.trimmed
  refine ⟨r, hr, hspells, rfl, fun t ht => ⟨hr.unmarked t ht, ?_⟩, hname, ?_⟩
  · exact MarkedType.getLast?_bare (hr.trimmed_write t ht)
  have htypes : (∀ t ∈ r.types, Plain t.bare) ↔ ∀ t ∈ r.types, ¬ Gapped t.write := by
    refine forall₂_congr fun t ht => ?_
    rw [← MarkedType.trimmed_bare_iff (hr.trimmed_write t ht) (hr.unmarked t ht)]
    exact ⟨Plain.trimmed, fun htrimmed => ⟨htrimmed, hr.unmarked t ht⟩⟩
  rw [htypes]
  exact and_congr_right fun _ => ⟨Plain.unmarked, fun hunmarked => ⟨hname, hunmarked⟩⟩

/-- A second marker for the class behind a blank. -/
def gappedRule : CompactRule :=
  ⟨⟨[⟨.on, .backward⟩], " ON{F}A".toList⟩, ⟨[], "void".toList⟩, "m".toList, []⟩

def gappedText : String := "<ON{B} ON{F}A: void m()>"

theorem ofCompact_plain_iff_gapped :
    ∃ g, ofCompact gappedText = .ok g ∧ g.signature.text = "< ON{F}A: void m()>" ∧
      g.on.toList = [⟨.backward, .base⟩] ∧
      ∃ r : CompactRule, (r.map MarkedType.write).Spells gappedText.toList ∧
        Gapped r.owner.write ∧ ¬ ((∀ t ∈ r.types, Plain t.bare) ∧ Plain r.name) := by
  have hread : ofCompact gappedText = .ok gappedRule.group := by rfl
  obtain ⟨r, hr, hspells, -, -, -, hplain⟩ := ofCompact_plain_iff hread
  have houtline : RuleOutline.read gappedText.toList = .ok (gappedRule.map MarkedType.write) := by
    rfl
  rw [RuleShape.read_of_spells hr.readable hspells] at houtline
  have howner : r.owner.write = "ON{B} ON{F}A".toList :=
    congrArg RuleShape.owner (Except.ok.inj houtline)
  have hgapped : Gapped r.owner.write :=
    ⟨[⟨.on, .backward⟩], ' ', "ON{F}A".toList, by decide, by decide, howner⟩
  refine ⟨_, hread, rfl, rfl, r, hspells, hgapped, fun hall => ?_⟩
  exact (hplain.1 hall).1 _ List.mem_cons_self hgapped

end RuleGroup

/-- The parameter types that the text of a signature lists. -/
def Signature.parameterTypes? (s : Signature) : Option (List (List Char)) :=
  (RuleOutline.read s.text.toList).toOption.map (·.params)

namespace CompactRule

variable {r : CompactRule}

/-- The types that the plain signature lists, each one trimmed. One empty type between the
parentheses is no type. -/
def listed (r : CompactRule) : List (List Char) :=
  if r.params.map MarkedType.bare = [[]] then [] else (r.params.map MarkedType.bare).map trim

theorem exists_of_mem_listed {cs : List Char} (hcs : cs ∈ r.listed) :
    ∃ t ∈ r.params, cs = trim t.bare := by
  unfold listed at hcs
  split at hcs
  · exact absurd hcs List.not_mem_nil
  · rw [List.map_map] at hcs
    obtain ⟨t, ht, rfl⟩ := List.mem_map.1 hcs
    exact ⟨t, ht, rfl⟩

/-- Only a single parameter that is nothing but markers is not counted. -/
theorem length_listed : r.listed.length =
    if r.params.map MarkedType.bare = [[]] then 0 else r.params.length := by
  unfold listed
  split
  · rfl
  · rw [List.length_map, List.length_map]

/-- What reading the plain signature finds. -/
def plainOutline (r : CompactRule) : RuleOutline :=
  ⟨trim r.owner.bare, trim r.result.bare, r.name, r.listed⟩

theorem spellsParams_listed (r : CompactRule) :
    RuleShape.SpellsParams r.listed (joinWith [','] (r.params.map MarkedType.bare)) := by
  unfold listed
  split
  · next hlone =>
    rw [hlone]
    exact .none blanks_nil
  · exact RuleShape.spellsParams_map padded_trim _

theorem spells_plainOutline (r : CompactRule) :
    r.plainOutline.Spells (RuleShape.write (r.map MarkedType.bare)) := by
  have hspace : isBlank ' ' = true := rfl
  obtain ⟨before, after, hbefore, hafter, hresult⟩ := padded_trim r.result.bare
  refine .parts blanks_nil (padded_trim r.owner.bare) (hbefore.cons hspace)
    (hafter.append (blanks_nil.cons hspace)) (List.mem_append_right _ List.mem_cons_self)
    blanks_nil r.spellsParams_listed blanks_nil ?_
  have hsplit : ∀ cs, r.result.bare ++ cs =
      before ++ (trim r.result.bare ++ (after ++ cs)) := fun cs => by
    rw [← List.append_assoc, ← List.append_assoc, ← hresult]
  simp only [RuleShape.write, RuleShape.map, plainOutline, List.append_assoc,
    List.cons_append, List.nil_append, List.append_nil, hsplit]

namespace Admissible

variable (h : r.Admissible)
include h

theorem trim_param {t : MarkedType} (ht : t ∈ r.params) : trim t.bare = [] ↔ t.bare = [] :=
  MarkedType.trim_bare_eq_nil (h.readable.params _ (List.mem_map_of_mem ht))

theorem listed_ne_singleton_nil : r.listed ≠ [[]] := by
  unfold listed
  split
  · exact nofun
  · next hlone =>
    intro hlisted
    rw [List.map_map] at hlisted
    obtain ⟨t, hparams, htrim⟩ := List.map_eq_singleton_iff.1 hlisted
    have hbare := (h.trim_param (hparams ▸ List.mem_singleton_self t)).1 htrim
    exact hlone (by rw [hparams, List.map_singleton, hbare])

theorem readable_plainOutline : r.plainOutline.Readable := by
  have hresult : trim r.result.bare ≠ [] := fun hnil =>
    h.result_ne_nil ((MarkedType.trim_bare_eq_nil h.readable.result.trimmed).1 hnil)
  refine ⟨trimmed_trim _, fun hc => ?_, ⟨hresult, trimmed_trim _, fun hc => ?_⟩, h.readable.name,
    fun cs hcs => ?_, fun cs hcs hc => ?_, h.listed_ne_singleton_nil⟩
  · exact h.readable.owner_lacks (List.mem_append_right _ (mem_of_mem_trim hc))
  · exact h.readable.result.lacks (List.mem_append_right _ (mem_of_mem_trim hc))
  · obtain ⟨t, -, rfl⟩ := exists_of_mem_listed hcs
    exact trimmed_trim t.bare
  · obtain ⟨t, ht, rfl⟩ := exists_of_mem_listed hcs
    exact h.readable.params_lack _ (List.mem_map_of_mem ht)
      (List.mem_append_right _ (mem_of_mem_trim hc))

/-- The signature of an admissible rule reads back, with the types that are left. -/
theorem parameterTypes?_signature : r.signature.parameterTypes? = some r.listed := by
  have hread := RuleShape.read_of_spells h.readable_plainOutline r.spells_plainOutline
  unfold Signature.parameterTypes? signature
  rw [String.toList_ofList, hread]
  rfl

end Admissible

end CompactRule

namespace RuleGroup

/-- Some selector of the group names the operand. -/
def Selects (g : RuleGroup) (operand : Operand) : Prop :=
  ∃ d, ⟨d, operand⟩ ∈ g.on ∨ ⟨d, operand⟩ ∈ g.go

variable {r : CompactRule}

theorem selects_positional {i : Nat} :
    r.group.Selects (.positional i) ↔ ∃ t, r.params[i]? = some t ∧ t.markers ≠ [] := by
  have hmem : ∀ role sel, sel ∈ OrderedSet.ofList (r.selectors role) ↔ r.Marks role sel :=
    fun role sel => OrderedSet.mem_ofList.trans CompactRule.mem_selectors
  constructor
  · rintro ⟨d, hon | hgo⟩
    · cases (hmem .on _).1 hon with
      | positional hparam hmarker => exact ⟨_, hparam, List.ne_nil_of_mem hmarker⟩
    · cases (hmem .go _).1 hgo with
      | positional hparam hmarker => exact ⟨_, hparam, List.ne_nil_of_mem hmarker⟩
  · rintro ⟨t, hparam, hmarkers⟩
    obtain ⟨⟨role, d⟩, hmarker⟩ := List.exists_mem_of_ne_nil _ hmarkers
    have hmarks : r.Marks role ⟨d, .positional i⟩ := .positional hparam hmarker
    cases role with
    | on => exact ⟨d, .inl ((hmem .on _).2 hmarks)⟩
    | go => exact ⟨d, .inr ((hmem .go _).2 hmarks)⟩

theorem lt_of_selects_positional {i : Nat} (h : r.group.Selects (.positional i)) :
    i < r.params.length := by
  obtain ⟨t, hparam, -⟩ := selects_positional.1 h
  exact (List.getElem?_eq_some_iff.1 hparam).1

/-- A single parameter that is nothing but markers is selected, but not listed. -/
theorem positional_lt_listed_iff (h : r.Admissible) :
    (∀ i, r.group.Selects (.positional i) → i < r.listed.length) ↔
      r.params.map MarkedType.bare ≠ [[]] := by
  rw [CompactRule.length_listed]
  constructor
  · intro hbound hlone
    obtain ⟨t, hparams, hbare⟩ := List.map_eq_singleton_iff.1 hlone
    have hmarkers : t.markers ≠ [] := by
      intro hnone
      have hwrite : t.write = [] := by rw [MarkedType.write, hnone, hbare]; rfl
      refine h.readable.listed ?_
      rw [RuleShape.map, hparams, List.map_singleton, hwrite]
    have hzero := hbound 0 (selects_positional.2 ⟨t, by rw [hparams]; rfl, hmarkers⟩)
    rw [if_pos hlone] at hzero
    exact absurd hzero (Nat.lt_irrefl 0)
  · intro hlone i hi
    rw [if_neg hlone]
    exact lt_of_selects_positional hi

/-- The selectors of an accepted rule name parameters that the rule writes, and its signature
lists the types left of these. The signature lists all parameters that are selected if and
only if there is another parameter than one that is nothing but markers; it does so and no type
listed is empty if and only if each parameter has a type behind its markers. -/
theorem ofCompact_selects_own_iff {rule : String} {g : RuleGroup} (h : ofCompact rule = .ok g) :
    ∃ (r : CompactRule) (types : List (List Char)), r.Admissible ∧
      (r.map MarkedType.write).Spells rule.toList ∧ g.signature.parameterTypes? = some types ∧
      (∀ i, g.Selects (.positional i) → i < r.params.length) ∧
      ((∀ i, g.Selects (.positional i) → i < types.length) ↔
        r.params.map MarkedType.bare ≠ [[]]) ∧
      (((∀ t ∈ types, t ≠ []) ∧ ∀ i, g.Selects (.positional i) → i < types.length) ↔
        ∀ t ∈ r.params, t.bare ≠ []) := by
  obtain ⟨r, hr, hspells, rfl⟩ := ofCompact_eq_ok_iff.1 h
  refine ⟨r, r.listed, hr, hspells, hr.parameterTypes?_signature,
    fun i => lt_of_selects_positional, positional_lt_listed_iff hr, ?_⟩
  rw [positional_lt_listed_iff hr]
  constructor
  · rintro ⟨hlisted, hlone⟩ t ht hbare
    refine hlisted (trim t.bare) ?_ ((hr.trim_param ht).2 hbare)
    rw [CompactRule.listed, if_neg hlone, List.map_map]
    exact List.mem_map_of_mem ht
  · intro hparams
    refine ⟨fun cs hcs => ?_, fun hlone => ?_⟩
    · obtain ⟨t, ht, rfl⟩ := CompactRule.exists_of_mem_listed hcs
      exact fun hnil => hparams t ht ((hr.trim_param ht).1 hnil)
    · obtain ⟨t, hone, hbare⟩ := List.map_eq_singleton_iff.1 hlone
      exact hparams t (hone ▸ List.mem_singleton_self t) hbare

/-- A parameter that is nothing but a marker. -/
def bareMarkerRule : CompactRule :=
  ⟨⟨[], "A".toList⟩, ⟨[], "void".toList⟩, "m".toList, [⟨[⟨.on, .backward⟩], []⟩]⟩

def bareMarkerText : String := "<A: void m(ON{B})>"

theorem ofCompact_selects_own_iff_bareMarker :
    ∃ g, ofCompact bareMarkerText = .ok g ∧ g.signature.text = "<A: void m()>" ∧
      g.on.toList = [⟨.backward, .positional 0⟩] ∧ g.signature.parameterTypes? = some [] ∧
      ∃ r : CompactRule, (r.map MarkedType.write).Spells bareMarkerText.toList ∧
        r.params.map MarkedType.bare = [[]] := by
  have hread : ofCompact bareMarkerText = .ok bareMarkerRule.group := by rfl
  have hselects : bareMarkerRule.group.Selects (.positional 0) := ⟨.backward, .inl (by decide)⟩
  have hnone : bareMarkerRule.group.signature.parameterTypes? = some [] := by rfl
  obtain ⟨r, types, -, hspells, htypes, -, hbound, -⟩ := ofCompact_selects_own_iff hread
  obtain rfl : [] = types := Option.some.inj (hnone.symm.trans htypes)
  refine ⟨_, hread, by rfl, by rfl, hnone, r, hspells, Decidable.not_not.1 fun hlone => ?_⟩
  exact absurd (hbound.2 hlone 0 hselects) (Nat.lt_irrefl 0)

end RuleGroup

end GuidedDataflow
