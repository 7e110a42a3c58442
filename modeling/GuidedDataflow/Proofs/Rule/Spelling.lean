import GuidedDataflow.Proofs.Text.Padding
import GuidedDataflow.Rule.Compact

/-!
Reading undoes writing for compact rules. A text spells a rule if it has the rule's parts, each
type with its markers directly before it, in their order and between their separators, with
blanks wherever reading trims. Whatever the parts are made of, as long as none contains the
separator that ends it, is empty, begins or ends with a blank or, without its markers, begins
like one, the rule group read has the plain signature and one selector for each marker.
-/

namespace GuidedDataflow

open Text

/-- A part that reading finds again in front of its separator. -/
structure Token (sep : Char) (cs : List Char) : Prop where
  ne_nil : cs ≠ []
  trimmed : Trimmed cs
  lacks : sep ∉ cs

instance (sep : Char) (cs : List Char) : Decidable (Token sep cs) :=
  decidable_of_iff (cs ≠ [] ∧ Trimmed cs ∧ sep ∉ cs)
    ⟨fun ⟨hne, ht, hl⟩ => ⟨hne, ht, hl⟩, fun h => ⟨h.ne_nil, h.trimmed, h.lacks⟩⟩

/-- The text does not begin like a marker. -/
def Unmarked (cs : List Char) : Prop := ¬ Role.on.lead <+: cs ∧ ¬ Role.go.lead <+: cs

instance (cs : List Char) : Decidable (Unmarked cs) := inferInstanceAs (Decidable (_ ∧ _))

theorem Unmarked.not_prefix {cs : List Char} (h : Unmarked cs) (role : Role) :
    ¬ role.lead <+: cs := by
  cases role with
  | on => exact h.1
  | go => exact h.2

namespace RuleShape

/-- All parts can be told apart. -/
structure Separable (r : RuleShape (List Char)) : Prop where
  owner : Token ':' r.owner
  result : Token ' ' r.result
  name : Token '(' r.name
  params : ∀ t ∈ r.params, Token ',' t

instance (r : RuleShape (List Char)) : Decidable r.Separable :=
  decidable_of_iff (Token ':' r.owner ∧ Token ' ' r.result ∧ Token '(' r.name ∧
      ∀ t ∈ r.params, Token ',' t)
    ⟨fun ⟨ho, hr, hn, hp⟩ => ⟨ho, hr, hn, hp⟩, fun h => ⟨h.owner, h.result, h.name, h.params⟩⟩

/-- All parts can be found again where they stand. The class and single parameters may be
empty, but a list of one empty parameter would be read as no parameter. -/
structure Readable (r : RuleShape (List Char)) : Prop where
  owner : Trimmed r.owner
  owner_lacks : ':' ∉ r.owner
  result : Token ' ' r.result
  name : Token '(' r.name
  params : ∀ t ∈ r.params, Trimmed t
  params_lack : ∀ t ∈ r.params, ',' ∉ t
  listed : r.params ≠ [[]]

theorem Separable.readable {r : RuleShape (List Char)} (h : r.Separable) : r.Readable where
  owner := h.owner.trimmed
  owner_lacks := h.owner.lacks
  result := h.result
  name := h.name
  params := fun t ht => (h.params t ht).trimmed
  params_lack := fun t ht => (h.params t ht).lacks
  listed := fun heq => (h.params [] (heq ▸ List.mem_singleton_self [])).ne_nil rfl

/-- The text lists the parameters between commas, with blanks around each. -/
inductive SpellsParams : List (List Char) → List Char → Prop
  | none {cs : List Char} (blanks : Blanks cs) : SpellsParams [] cs
  | last {t cs : List Char} (padded : Padded t cs) : SpellsParams [t] cs
  | more {t u cs rest : List Char} {ts : List (List Char)} (padded : Padded t cs)
      (later : SpellsParams (u :: ts) rest) : SpellsParams (t :: u :: ts) (cs ++ ',' :: rest)

/-- The text has the parts of the rule between their separators. Blanks may stand around the
whole, around the class and each parameter, before the return type and around the name; before
the name there is at least one space. -/
inductive Spells (r : RuleShape (List Char)) (cs : List Char) : Prop
  | parts {before owner lead gap trail params after : List Char} (before_blanks : Blanks before)
      (owner_padded : Padded r.owner owner) (lead_blanks : Blanks lead) (gap_blanks : Blanks gap)
      (gap_space : ' ' ∈ gap) (trail_blanks : Blanks trail)
      (params_spelled : SpellsParams r.params params) (after_blanks : Blanks after)
      (text : cs = before ++ ['<'] ++ owner ++ [':'] ++ lead ++ r.result ++ gap ++ r.name ++
        trail ++ ['('] ++ params ++ [')', '>'] ++ after)

end RuleShape

theorem MarkedType.mem_selectors {t : MarkedType} {role : Role} {operand : Operand}
    {sel : Selector} : sel ∈ t.selectors role operand ↔
      ⟨role, sel.direction⟩ ∈ t.markers ∧ operand = sel.operand := by
  obtain ⟨d, other⟩ := sel
  simp only [selectors, List.mem_map, List.mem_filter, decide_eq_true_eq, Selector.mk.injEq]
  constructor
  · rintro ⟨m, ⟨hm, rfl⟩, rfl, rfl⟩
    exact ⟨hm, rfl⟩
  · rintro ⟨hm, rfl⟩
    exact ⟨_, ⟨hm, rfl⟩, rfl, rfl⟩

namespace CompactRule

/-- The parts of the rule can be told apart, from each other and from the markers. -/
structure Legible (r : CompactRule) : Prop where
  separable : (r.map MarkedType.bare).Separable
  owner : Unmarked r.owner.bare
  result : Unmarked r.result.bare
  params : ∀ t ∈ r.params, Unmarked t.bare

instance (r : CompactRule) : Decidable r.Legible :=
  decidable_of_iff ((r.map MarkedType.bare).Separable ∧ Unmarked r.owner.bare ∧
      Unmarked r.result.bare ∧ ∀ t ∈ r.params, Unmarked t.bare)
    ⟨fun ⟨hs, ho, hr, hp⟩ => ⟨hs, ho, hr, hp⟩,
      fun h => ⟨h.separable, h.owner, h.result, h.params⟩⟩

/-- The rule has a marker of the role before the operand that the selector names, with the
selector's direction. -/
inductive Marks (r : CompactRule) (role : Role) : Selector → Prop
  | base {d : Direction} (marker : ⟨role, d⟩ ∈ r.owner.markers) : Marks r role ⟨d, .base⟩
  | result {d : Direction} (marker : ⟨role, d⟩ ∈ r.result.markers) : Marks r role ⟨d, .result⟩
  | positional {d : Direction} {i : Nat} {t : MarkedType} (param : r.params[i]? = some t)
      (marker : ⟨role, d⟩ ∈ t.markers) : Marks r role ⟨d, .positional i⟩

/-- The rule can be read: its parts are found, behind its markers no type begins like another one,
class and return type are not empty, and some marker triggers it. -/
structure Admissible (r : CompactRule) : Prop where
  readable : (r.map MarkedType.write).Readable
  owner : Unmarked r.owner.bare
  owner_ne_nil : r.owner.bare ≠ []
  result : Unmarked r.result.bare
  result_ne_nil : r.result.bare ≠ []
  params : ∀ t ∈ r.params, Unmarked t.bare
  triggered : ∃ sel, r.Marks .on sel

theorem mem_operands {r : CompactRule} {operand : Operand} {t : MarkedType} :
    (operand, t) ∈ r.operands ↔ (operand = .base ∧ t = r.owner) ∨
      (operand = .result ∧ t = r.result) ∨
        ∃ i, r.params[i]? = some t ∧ operand = .positional i := by
  simp only [RuleShape.operands, List.mem_cons, Prod.mk.injEq, List.mem_map, Prod.exists,
    List.mem_zipIdx_iff_getElem?]
  refine or_congr_right (or_congr_right ?_)
  constructor
  · rintro ⟨t, i, hparam, rfl, rfl⟩
    exact ⟨i, hparam, rfl⟩
  · rintro ⟨i, hparam, rfl⟩
    exact ⟨t, i, hparam, rfl, rfl⟩

theorem mem_selectors {r : CompactRule} {role : Role} {sel : Selector} :
    sel ∈ r.selectors role ↔ r.Marks role sel := by
  obtain ⟨d, operand⟩ := sel
  simp only [selectors, List.mem_flatMap, Prod.exists, MarkedType.mem_selectors, mem_operands]
  constructor
  · rintro ⟨_, t, ⟨rfl, rfl⟩ | ⟨rfl, rfl⟩ | ⟨i, hparam, rfl⟩, hmarker, rfl⟩
    · exact .base hmarker
    · exact .result hmarker
    · exact .positional hparam hmarker
  · intro h
    cases h with
    | base hmarker => exact ⟨_, _, .inl ⟨rfl, rfl⟩, hmarker, rfl⟩
    | result hmarker => exact ⟨_, _, .inr (.inl ⟨rfl, rfl⟩), hmarker, rfl⟩
    | positional hparam hmarker =>
      exact ⟨_, _, .inr (.inr ⟨_, hparam, rfl⟩), hmarker, rfl⟩

end CompactRule

namespace Marker

theorem takeAll_chars_append (m : Marker) (cs : List Char) :
    takeAll (m.chars ++ cs) = (m :: (takeAll cs).1, (takeAll cs).2) := by
  obtain ⟨role, d⟩ := m
  cases role <;> cases d <;> rfl

theorem mem_all (m : Marker) : m ∈ all := by
  obtain ⟨role, d⟩ := m
  cases role <;> cases d <;> decide

theorem not_mem_chars {c : Char} (h : ∀ m ∈ all, c ∉ m.chars) (m : Marker) : c ∉ m.chars :=
  h m m.mem_all

theorem not_isBlank (m : Marker) : ∀ c ∈ m.chars, isBlank c = false := by
  have hall : (all.all fun m => m.chars.all fun c => !isBlank c) = true := by decide
  have hm := List.all_eq_true.1 hall m m.mem_all
  exact fun c hc => by simpa using List.all_eq_true.1 hm c hc

theorem lead_prefix_chars (m : Marker) : m.role.lead <+: m.chars := List.prefix_append _ _

theorem takeAll_of_unmarked {cs : List Char} (h : Unmarked cs) : takeAll cs = ([], cs) := by
  unfold takeAll
  split
  · next a b c d e rest =>
    split
    · next m hm =>
      have hchars : m.chars = [a, b, c, d, e] := by simpa using List.find?_some hm
      have hprefix : m.chars <+: a :: b :: c :: d :: e :: rest := by
        rw [hchars]
        exact List.prefix_append [a, b, c, d, e] rest
      exact absurd (m.lead_prefix_chars.trans hprefix) (h.not_prefix m.role)
    · rfl
  · rfl

theorem unknown?_of_unmarked {cs : List Char} (h : Unmarked cs) : unknown? cs = none := by
  have hlead : ∀ role : Role, role.lead.isPrefixOf cs = false := fun role =>
    Bool.eq_false_iff.2 fun hprefix => h.not_prefix role (List.isPrefixOf_iff_prefix.1 hprefix)
  rw [unknown?, hlead, hlead]
  rfl

theorem takeAll_flatMap_chars {bare : List Char} (h : Unmarked bare) (ms : List Marker) :
    takeAll (ms.flatMap chars ++ bare) = (ms, bare) := by
  induction ms with
  | nil => exact takeAll_of_unmarked h
  | cons m ms ih => rw [List.flatMap_cons, List.append_assoc, takeAll_chars_append, ih]

end Marker

theorem Token.write {sep : Char} {t : MarkedType} (h : Token sep t.bare)
    (hsep : ∀ m : Marker, sep ∉ m.chars) : Token sep t.write := by
  refine ⟨?_, ?_, ?_⟩
  · exact List.append_ne_nil_of_right_ne_nil _ h.ne_nil
  · refine h.trimmed.append_left h.ne_nil fun c hc => ?_
    obtain ⟨m, -, hmem⟩ := List.mem_flatMap.1 hc
    exact m.not_isBlank c hmem
  · simp only [MarkedType.write, List.mem_append, List.mem_flatMap, not_or]
    exact ⟨fun ⟨m, _, hm⟩ => hsep m hm, h.lacks⟩

theorem MarkedType.read_write {t : MarkedType} (h : Unmarked t.bare) : read t.write = .ok t := by
  unfold read write
  simp only [Marker.takeAll_flatMap_chars h, Marker.unknown?_of_unmarked h]

namespace RuleShape

variable {o : RuleShape (List Char)}

/-- Joined pieces list whatever each of them is with blanks around it. -/
theorem spellsParams_map {f : List Char → List Char} (hpadded : ∀ cs, Padded (f cs) cs)
    (pieces : List (List Char)) : SpellsParams (pieces.map f) (joinWith [','] pieces) := by
  induction pieces with
  | nil => exact .none blanks_nil
  | cons cs pieces ih =>
    cases pieces with
    | nil => exact .last (hpadded cs)
    | cons ds pieces =>
      have hjoin : joinWith [','] (cs :: ds :: pieces) = cs ++ ',' :: joinWith [','] (ds :: pieces) :=
        List.append_assoc cs [','] _
      rw [hjoin]
      exact .more (hpadded cs) ih

theorem spellsParams_joinWith (ts : List (List Char)) : SpellsParams ts (joinWith [','] ts) := by
  have hsame := spellsParams_map (f := id) Padded.refl ts
  rwa [List.map_id] at hsame

/-- Written with single separators, the parts are spelled. -/
theorem spells_write (o : RuleShape (List Char)) : o.Spells o.write := by
  have hspace : Blanks [' '] := by decide
  refine .parts blanks_nil (.refl o.owner) hspace hspace List.mem_cons_self blanks_nil
    (spellsParams_joinWith o.params) blanks_nil ?_
  simp only [write, List.append_assoc, List.cons_append, List.nil_append, List.append_nil]

theorem SpellsParams.trimmedPieces_eq {ts : List (List Char)} {cs : List Char}
    (h : SpellsParams ts cs) (hne : ts ≠ []) (htrimmed : ∀ t ∈ ts, Trimmed t)
    (hlack : ∀ t ∈ ts, ',' ∉ t) : trimmedPieces ',' cs = ts := by
  induction h with
  | none => exact absurd rfl hne
  | last hpadded =>
    obtain ⟨ht, -⟩ := List.forall_mem_cons.1 htrimmed
    obtain ⟨hcomma, -⟩ := List.forall_mem_cons.1 hlack
    unfold trimmedPieces
    rw [splitAll_of_not_mem (hpadded.not_mem rfl hcomma), List.map_singleton, hpadded.trim_eq ht]
  | more hpadded _ ih =>
    obtain ⟨ht, hlater⟩ := List.forall_mem_cons.1 htrimmed
    obtain ⟨hcomma, hcommas⟩ := List.forall_mem_cons.1 hlack
    have hrest := ih (List.cons_ne_nil _ _) hlater hcommas
    unfold trimmedPieces at hrest ⊢
    rw [splitAll_append (hpadded.not_mem rfl hcomma), List.map_cons, hrest, hpadded.trim_eq ht]

theorem parameters_of_spellsParams {ts : List (List Char)} {cs : List Char}
    (h : SpellsParams ts cs) (htrimmed : ∀ t ∈ ts, Trimmed t) (hlack : ∀ t ∈ ts, ',' ∉ t)
    (hlisted : ts ≠ [[]]) : RuleOutline.parameters cs = ts := by
  cases ts with
  | nil =>
    cases h with
    | none hblanks =>
      unfold RuleOutline.parameters
      rw [trim_of_blanks hblanks]
  | cons t ts =>
    have hpieces := h.trimmedPieces_eq (List.cons_ne_nil t ts) htrimmed hlack
    rw [← trimmedPieces_trim rfl] at hpieces
    unfold RuleOutline.parameters
    cases htrim : trim cs with
    | nil =>
      -- a text without any character has one piece, and that is empty
      rw [htrim] at hpieces
      exact absurd hpieces.symm hlisted
    | cons c rest =>
      rw [htrim] at hpieces
      exact hpieces

theorem inner?_of_padded {inner cs : List Char} (h : Padded ('<' :: (inner ++ ['>'])) cs) :
    RuleOutline.inner? cs = some inner := by
  have htrimmed : Trimmed ('<' :: (inner ++ ['>'])) := by
    refine ⟨fun c hc => ?_, fun c hc => ?_⟩
    · obtain rfl : '<' = c := Option.some.inj hc
      rfl
    · rw [← List.cons_append, List.getLast?_concat] at hc
      obtain rfl : '>' = c := Option.some.inj hc
      rfl
  unfold RuleOutline.inner?
  rw [h.trim_eq htrimmed]
  simp only [List.getLast?_concat, if_true, List.dropLast_concat]

theorem read_of_spells (ho : o.Readable) {cs : List Char} (h : o.Spells cs) :
    RuleOutline.read cs = .ok o := by
  cases h with
  | @parts before owner lead gap trail params after hbefore howner hlead hgap hspace htrail hparams
      hafter htext =>
    -- the return type ends at the first space of the gap behind it
    obtain ⟨gap, gap', rfl, hfirst⟩ := List.eq_append_cons_of_mem hspace
    have hresult : Padded o.result (o.result ++ gap) :=
      ⟨[], gap, blanks_nil, fun c hc => hgap c (List.mem_append_left _ hc), rfl⟩
    have hname : Padded o.name (gap' ++ o.name ++ trail) :=
      ⟨gap', trail, fun c hc => hgap c (List.mem_append_right _ (List.mem_cons_of_mem _ hc)),
        htrail, rfl⟩
    obtain ⟨call, hcall⟩ : ∃ call, call = gap' ++ o.name ++ trail ++ '(' :: (params ++ [')']) :=
      ⟨_, rfl⟩
    have hinner : RuleOutline.inner? cs =
        some (owner ++ ':' :: (lead ++ (o.result ++ gap ++ ' ' :: call))) := by
      refine inner?_of_padded ⟨before, after, hbefore, hafter, ?_⟩
      simp only [htext, hcall, List.append_assoc, List.cons_append, List.nil_append]
    have hcolon : ':' ∉ owner := howner.not_mem rfl ho.owner_lacks
    have hleft : trimLeft (lead ++ (o.result ++ gap ++ ' ' :: call)) =
        o.result ++ gap ++ ' ' :: call := by
      rw [trimLeft_append_of_blanks hlead, List.append_assoc,
        trimLeft_append ho.result.ne_nil ho.result.trimmed]
    have hword : ' ' ∉ o.result ++ gap := by
      rw [List.mem_append, not_or]
      exact ⟨ho.result.lacks, hfirst⟩
    have hopen : splitOnce? '(' call = some (gap' ++ o.name ++ trail, params ++ [')']) := by
      rw [hcall, splitOnce?_append (hname.not_mem rfl ho.name.lacks)]
    have hnonempty : o.name.isEmpty = false := by
      rw [List.isEmpty_eq_false_iff]
      exact ho.name.ne_nil
    unfold RuleOutline.read
    simp only [hinner, splitOnce?_append hcolon, hleft, splitOnce?_append hword, hopen,
      List.getLast?_concat, List.dropLast_concat, hname.trim_eq ho.name.trimmed, hnonempty,
      howner.trim_eq ho.owner, hresult.trim_eq ho.result.trimmed,
      parameters_of_spellsParams hparams ho.params ho.params_lack ho.listed, ne_eq, not_true_eq_false, if_false,
      Bool.false_eq_true]

end RuleShape

namespace CompactRule

variable {r : CompactRule}

theorem mapM_read_write {ts : List MarkedType} (h : ∀ t ∈ ts, Unmarked t.bare) :
    (ts.map MarkedType.write).mapM MarkedType.read = .ok ts := by
  induction ts with
  | nil => rfl
  | cons t ts ih =>
    obtain ⟨ht, hts⟩ := List.forall_mem_cons.1 h
    rw [List.map_cons, List.mapM_cons, MarkedType.read_write ht, ih hts]
    rfl

namespace Legible

variable (h : r.Legible)
include h

/-- Markers contain none of the separators. -/
theorem separable_write : (r.map MarkedType.write).Separable := by
  refine ⟨h.separable.owner.write fun m => m.not_mem_chars (by decide),
    h.separable.result.write fun m => m.not_mem_chars (by decide), h.separable.name,
    fun cs hcs => ?_⟩
  obtain ⟨t, ht, rfl⟩ := List.mem_map.1 hcs
  have htoken := h.separable.params _ (List.mem_map_of_mem ht)
  exact htoken.write fun m => m.not_mem_chars (by decide)

theorem admissible (htrigger : ∃ sel, r.Marks .on sel) : r.Admissible where
  readable := h.separable_write.readable
  owner := h.owner
  owner_ne_nil := h.separable.owner.ne_nil
  result := h.result
  result_ne_nil := h.separable.result.ne_nil
  params := h.params
  triggered := htrigger

end Legible

theorem ofOutline_write (ho : Unmarked r.owner.bare) (hr : Unmarked r.result.bare)
    (hps : ∀ t ∈ r.params, Unmarked t.bare) : ofOutline (r.map MarkedType.write) = .ok r := by
  unfold ofOutline RuleShape.map
  simp only [MarkedType.read_write ho, MarkedType.read_write hr, mapM_read_write hps]
  rfl

/-- A rule is triggered if one of its markers is an `ON` marker. -/
theorem isEmpty_on : r.group.on.isEmpty = false ↔ ∃ sel, r.Marks .on sel := by
  constructor
  · intro h
    obtain ⟨sel, hsel⟩ := List.exists_mem_of_ne_nil _ (List.isEmpty_eq_false_iff.1 h)
    exact ⟨sel, mem_selectors.1 (OrderedSet.mem_ofList.1 hsel)⟩
  · rintro ⟨sel, hsel⟩
    have hmem : sel ∈ r.group.on := OrderedSet.mem_ofList.2 (mem_selectors.2 hsel)
    exact List.isEmpty_eq_false_iff.2 (List.ne_nil_of_mem hmem)

end CompactRule

namespace RuleGroup

variable {r : CompactRule}

/-- An admissible rule reads back from every text that spells it. -/
theorem ofCompact_of_admissible (h : r.Admissible) {rule : String}
    (hrule : (r.map MarkedType.write).Spells rule.toList) : ofCompact rule = .ok r.group := by
  have howner : r.owner.bare.isEmpty = false := List.isEmpty_eq_false_iff.2 h.owner_ne_nil
  have hresult : r.result.bare.isEmpty = false := List.isEmpty_eq_false_iff.2 h.result_ne_nil
  have hon : r.group.on.isEmpty = false := CompactRule.isEmpty_on.2 h.triggered
  unfold ofCompact
  rw [RuleShape.read_of_spells h.readable hrule]
  simp only [CompactRule.ofOutline_write h.owner h.result h.params, howner, hresult, hon]
  rfl

/-- A legible rule reads back from every text that spells it, if some marker triggers it. -/
theorem ofCompact_of_spells (h : r.Legible) (htrigger : ∃ sel, r.Marks .on sel) {rule : String}
    (hrule : (r.map MarkedType.write).Spells rule.toList) : ofCompact rule = .ok r.group :=
  ofCompact_of_admissible (h.admissible htrigger) hrule

/-- In particular a legible rule reads back from its own text. -/
theorem ofCompact_write (h : r.Legible) (htrigger : ∃ sel, r.Marks .on sel) :
    ofCompact (String.ofList r.write) = .ok r.group := by
  refine ofCompact_of_spells h htrigger ?_
  rw [String.toList_ofList]
  exact RuleShape.spells_write _

/-- Whatever text spells a legible rule that some marker triggers, the group read has the plain
signature, written with single separators, and as selectors exactly the markers of either role,
each with its direction and the operand that it stands before. -/
theorem ofCompact_undoes_spelling (h : r.Legible) (htrigger : ∃ sel, r.Marks .on sel)
    {rule : String} (hrule : (r.map MarkedType.write).Spells rule.toList) :
    ∃ g, ofCompact rule = .ok g ∧
      g.signature.text = String.ofList (RuleShape.write (r.map MarkedType.bare)) ∧
      (∀ sel, sel ∈ g.on ↔ r.Marks .on sel) ∧ ∀ sel, sel ∈ g.go ↔ r.Marks .go sel := by
  refine ⟨r.group, ofCompact_of_spells h htrigger hrule, rfl, fun sel => ?_, fun sel => ?_⟩
  · exact OrderedSet.mem_ofList.trans CompactRule.mem_selectors
  · exact OrderedSet.mem_ofList.trans CompactRule.mem_selectors

/-- Types with parentheses and angle brackets, and a marker that is written twice. -/
def crowdedRule : CompactRule :=
  ⟨⟨[⟨.on, .backward⟩, ⟨.go, .forward⟩], "a.S<B>".toList⟩,
    ⟨[⟨.go, .forward⟩], "void".toList⟩, "<init>".toList,
    [⟨[⟨.on, .forward⟩, ⟨.on, .forward⟩], "char[]".toList⟩,
      ⟨[⟨.go, .backward⟩], "f(x)".toList⟩]⟩

theorem ofCompact_undoes_spelling_crowded :
    let rule := "\t< ON{B}GO{F}a.S<B> :GO{F}void\t \u3000<init> (ON{F}ON{F}char[] , GO{B}f(x) )>\n"
    crowdedRule.Legible ∧ crowdedRule.Marks .on ⟨.backward, .base⟩ ∧
      (crowdedRule.map MarkedType.write).Spells rule.toList ∧
      ∃ g, ofCompact rule = .ok g ∧ g.signature.text = "<a.S<B>: void <init>(char[],f(x))>" ∧
        ⟨.forward, .positional 0⟩ ∈ g.on ∧ ⟨.backward, .positional 1⟩ ∈ g.go ∧
        ⟨.backward, .positional 1⟩ ∉ g.on := by
  intro rule
  have hlegible : crowdedRule.Legible := by decide
  have htrigger : crowdedRule.Marks .on ⟨.backward, .base⟩ := .base (by decide)
  have hlast : Padded "GO{B}f(x)".toList " GO{B}f(x) ".toList :=
    ⟨[' '], [' '], by decide, by decide, by decide⟩
  have hparams : RuleShape.SpellsParams ["ON{F}ON{F}char[]".toList, "GO{B}f(x)".toList]
      ("ON{F}ON{F}char[] ".toList ++ ',' :: " GO{B}f(x) ".toList) :=
    .more ⟨[], [' '], by decide, by decide, by decide⟩ (.last hlast)
  have howner : Padded "ON{B}GO{F}a.S<B>".toList " ON{B}GO{F}a.S<B> ".toList :=
    ⟨[' '], [' '], by decide, by decide, by decide⟩
  have hspells : (crowdedRule.map MarkedType.write).Spells rule.toList :=
    @RuleShape.Spells.parts _ _ ['\t'] _ [] "\t \u3000".toList [' '] _ ['\n'] (by decide) howner
      (by decide) (by decide) (by decide) (by decide) hparams (by decide) (by decide)
  obtain ⟨g, hread, hsignature, hon, hgo⟩ :=
    ofCompact_undoes_spelling hlegible ⟨_, htrigger⟩ hspells
  refine ⟨hlegible, htrigger, hspells, g, hread, hsignature, (hon _).2 ?_, (hgo _).2 ?_, ?_⟩
  · exact .positional rfl (by decide)
  · exact .positional rfl (by decide)
  · intro hmem
    cases (hon _).1 hmem with
    | positional hparam hmarker =>
      cases hparam
      revert hmarker
      decide

end RuleGroup

end GuidedDataflow
