import Mathlib.Data.List.Basic
import GuidedDataflow.Rule.Decode
import GuidedDataflow.Proofs.Rule.Accepted
import GuidedDataflow.Proofs.Rule.Grouping

/-!
Loading specifications. Strict loading succeeds where the version is supported and every entry
converts, and lenient loading is strict loading of the file without the entries that do not.
Rules that stand alone, in a list or one a line, are loaded like files of compact rules: blanks
around a rule change nothing, and neither a blank line nor a comment is a rule. Whichever way a
specification was loaded, its groups can be triggered and stand under their own signatures.
-/

namespace GuidedDataflow

open Std Text

section
variable {ε α β : Type} {f : α → Except ε β} {l : List α} {e : ε} {bs : List β}

theorem mapM_eq_ok_iff : l.mapM f = .ok bs ↔ l.map f = bs.map .ok := by
  induction l generalizing bs with
  | nil => cases bs <;> simp [pure, Except.pure]
  | cons a l ih =>
    rw [List.mapM_cons, List.map_cons]
    constructor
    · intro h
      obtain ⟨b, hb, h⟩ := exists_of_bind_eq_ok h
      obtain ⟨rest, hrest, h⟩ := exists_of_bind_eq_ok h
      obtain rfl := Except.ok.inj h
      rw [hb, ih.1 hrest, List.map_cons]
    · intro h
      cases bs with
      | nil => cases h
      | cons b bs =>
        obtain ⟨hb, hrest⟩ := List.cons.inj h
        rw [hb, ih.2 hrest]
        rfl

/-- The error is that of the first part that fails. -/
theorem mapM_eq_error_iff : l.mapM f = .error e ↔ ∃ before a after,
    l = before ++ a :: after ∧ (∀ x ∈ before, ∃ b, f x = .ok b) ∧ f a = .error e := by
  induction l with
  | nil => simp [pure, Except.pure]
  | cons a l ih =>
    rw [List.mapM_cons]
    cases ha : f a with
    | error e' =>
      constructor
      · intro h
        obtain rfl := Except.error.inj h
        exact ⟨[], a, l, rfl, fun _ hx => absurd hx List.not_mem_nil, ha⟩
      · rintro ⟨before, x, after, hsplit, hbefore, hx⟩
        cases before with
        | nil =>
          obtain ⟨rfl, rfl⟩ := List.cons.inj hsplit
          rw [Except.error.inj (ha.symm.trans hx)]
          rfl
        | cons y before =>
          obtain ⟨rfl, -⟩ := List.cons.inj hsplit
          obtain ⟨b, hb⟩ := hbefore a List.mem_cons_self
          exact nomatch ha.symm.trans hb
    | ok b =>
      have hlater : (do let bs ← l.mapM f; pure (b :: bs)) = Except.error e ↔
          l.mapM f = .error e := by
        cases l.mapM f with
        | error _ => exact Iff.rfl
        | ok _ => exact ⟨nofun, nofun⟩
      refine Iff.trans hlater (ih.trans ⟨?_, ?_⟩)
      · rintro ⟨before, x, after, rfl, hbefore, hx⟩
        exact ⟨a :: before, x, after, rfl, List.forall_mem_cons.2 ⟨⟨b, ha⟩, hbefore⟩, hx⟩
      · rintro ⟨before, x, after, hsplit, hbefore, hx⟩
        cases before with
        | nil =>
          obtain ⟨rfl, -⟩ := List.cons.inj hsplit
          exact nomatch ha.symm.trans hx
        | cons y before =>
          obtain ⟨-, rfl⟩ := List.cons.inj hsplit
          exact ⟨before, x, after, rfl, (List.forall_mem_cons.1 hbefore).2, hx⟩

theorem mapM_filter_isOk :
    (l.filter fun a => (f a).isOk).mapM f = .ok (l.filterMap fun a => (f a).toOption) := by
  rw [mapM_eq_ok_iff]
  induction l with
  | nil => rfl
  | cons a l ih =>
    rw [List.filter_cons, List.filterMap_cons]
    cases ha : f a with
    | error e => exact ih
    | ok b => exact congr (congrArg List.cons ha) ih

end

/-- The entry stands for a rule group. -/
def RuleEntry.Converts (entry : RuleEntry) : Prop := ∃ g, entry.group = .ok g

namespace RuleFile

/-- The file without the entries that do not convert. -/
def cleared (f : RuleFile) : RuleFile :=
  { f with rules := f.rules.filter fun entry => entry.group.isOk }

/-- A file of compact rules, in the version that is supported. -/
def ofRules (rules : List String) : RuleFile := ⟨1, rules.map .compact⟩

/-- The first entry that does not convert, and why. -/
def FailsFirst (f : RuleFile) (entry : RuleEntry) (e : RuleError) : Prop :=
  ∃ before after, f.rules = before ++ entry :: after ∧ (∀ x ∈ before, x.Converts) ∧
    entry.group = .error e

variable {f : RuleFile} {spec : Specification}

theorem strict_of_supported (h : f.version ∈ supportedRuleVersions) : f.strict =
    match f.rules.mapM RuleEntry.group with
    | .ok groups => .ok (.ofGroups groups)
    | .error e => .error (.rule e) := by
  simp only [strict, checkVersion, if_pos h]
  rfl

theorem strict_of_unsupported (h : f.version ∉ supportedRuleVersions) :
    f.strict = .error (.unsupportedVersion f.version) := by
  simp only [strict, checkVersion, if_neg h]
  rfl

theorem lenient_of_supported (h : f.version ∈ supportedRuleVersions) : f.lenient =
    .ok (.ofGroups (f.rules.filterMap fun entry => entry.group.toOption)) := by
  simp only [lenient, checkVersion, if_pos h]
  rfl

theorem lenient_of_unsupported (h : f.version ∉ supportedRuleVersions) :
    f.lenient = .error (.unsupportedVersion f.version) := by
  simp only [lenient, checkVersion, if_neg h]
  rfl

theorem strict_eq_ok_iff : f.strict = .ok spec ↔ f.version ∈ supportedRuleVersions ∧
    ∃ groups, f.rules.map RuleEntry.group = groups.map .ok ∧ spec = .ofGroups groups := by
  by_cases h : f.version ∈ supportedRuleVersions
  · rw [strict_of_supported h, and_iff_right h]
    constructor
    · intro hstrict
      split at hstrict
      · next groups hgroups =>
        exact ⟨groups, mapM_eq_ok_iff.1 hgroups, (Except.ok.inj hstrict).symm⟩
      · cases hstrict
    · rintro ⟨groups, hgroups, rfl⟩
      rw [mapM_eq_ok_iff.2 hgroups]
  · rw [strict_of_unsupported h]
    exact ⟨nofun, fun hok => absurd hok.1 h⟩

theorem strict_eq_error_iff {e : LoadError} : f.strict = .error e ↔
    (f.version ∉ supportedRuleVersions ∧ e = .unsupportedVersion f.version) ∨
      (f.version ∈ supportedRuleVersions ∧ ∃ entry cause, f.FailsFirst entry cause ∧
        e = .rule cause) := by
  by_cases h : f.version ∈ supportedRuleVersions
  · rw [strict_of_supported h, or_iff_right fun hnot => hnot.1 h, and_iff_right h]
    constructor
    · intro hstrict
      split at hstrict
      · cases hstrict
      · next cause hcause =>
        obtain ⟨before, entry, after, hsplit, hbefore, hentry⟩ := mapM_eq_error_iff.1 hcause
        exact ⟨entry, cause, ⟨before, after, hsplit, hbefore, hentry⟩,
          (Except.error.inj hstrict).symm⟩
    · rintro ⟨entry, cause, ⟨before, after, hsplit, hbefore, hentry⟩, rfl⟩
      rw [mapM_eq_error_iff.2 ⟨before, entry, after, hsplit, hbefore, hentry⟩]
  · rw [strict_of_unsupported h, or_iff_left fun hyes => h hyes.1, and_iff_right h,
      Except.error.injEq, eq_comm]

/-- Each group of entries that convert is that of one of them, and the other way round. -/
theorem mem_groups_iff {entries : List RuleEntry} {groups : List RuleGroup}
    (h : entries.map RuleEntry.group = groups.map .ok) {g : RuleGroup} :
    g ∈ groups ↔ ∃ entry ∈ entries, entry.group = .ok g := by
  have hgroups : Except.ok g ∈ groups.map (.ok (ε := RuleError)) ↔ g ∈ groups := by
    simp only [List.mem_map, Except.ok.injEq, exists_eq_right]
  rw [← hgroups, ← h, List.mem_map]

theorem converts_of_mem (h : f.strict = .ok spec) {entry : RuleEntry} (hentry : entry ∈ f.rules) :
    entry.Converts := by
  obtain ⟨-, groups, hgroups, -⟩ := strict_eq_ok_iff.1 h
  have hmem : entry.group ∈ groups.map .ok := hgroups ▸ List.mem_map_of_mem hentry
  obtain ⟨g, -, hg⟩ := List.mem_map.1 hmem
  exact ⟨g, hg.symm⟩

theorem exists_strict_iff : (∃ spec, f.strict = .ok spec) ↔
    f.version ∈ supportedRuleVersions ∧ ∀ entry ∈ f.rules, entry.Converts := by
  constructor
  · rintro ⟨spec, h⟩
    exact ⟨(strict_eq_ok_iff.1 h).1, fun _ => converts_of_mem h⟩
  · rintro ⟨hversion, hconverts⟩
    cases hstrict : f.strict with
    | ok spec => exact ⟨spec, rfl⟩
    | error e =>
      rcases strict_eq_error_iff.1 hstrict with ⟨h, -⟩ | ⟨-, entry, _, hfails, -⟩
      · exact absurd hversion h
      · obtain ⟨before, after, hsplit, -, hcause⟩ := hfails
        obtain ⟨g, hg⟩ := hconverts entry (hsplit ▸ List.mem_append_right _ List.mem_cons_self)
        exact nomatch hcause.symm.trans hg

/-- What a file loads strictly as: the groups of its entries, each under its signature. -/
theorem mem_groupsFor_of_strict (h : f.strict = .ok spec) {g : RuleGroup} {signature : Signature} :
    g ∈ spec.groupsFor signature ↔
      (∃ entry ∈ f.rules, entry.group = .ok g) ∧ g.signature = signature := by
  obtain ⟨-, groups, hgroups, rfl⟩ := strict_eq_ok_iff.1 h
  rw [Specification.mem_groupsFor_ofGroups, mem_groups_iff hgroups]

theorem strict_cleared : f.cleared.strict = f.lenient := by
  by_cases h : f.version ∈ supportedRuleVersions
  · rw [lenient_of_supported h, strict_of_supported (f := f.cleared) h]
    simp only [cleared, mapM_filter_isOk]
  · rw [lenient_of_unsupported h, strict_of_unsupported (f := f.cleared) h]
    rfl

theorem cleared_of_strict (h : f.strict = .ok spec) : f.cleared = f := by
  have hall : f.rules.filter (fun entry => entry.group.isOk) = f.rules := by
    refine List.filter_eq_self.2 fun entry hentry => ?_
    obtain ⟨g, hg⟩ := converts_of_mem h hentry
    rw [hg]
    rfl
  rw [cleared, hall]

theorem lenient_of_strict (h : f.strict = .ok spec) : f.lenient = .ok spec := by
  rw [← strict_cleared, cleared_of_strict h, h]

end RuleFile

/-- Blanks around a rule change nothing. -/
theorem RuleOutline.read_trim (cs : List Char) : RuleOutline.read (trim cs) = RuleOutline.read cs := by
  simp only [read, inner?, trim_trim]

/-- The group that a text reads as depends on the text's outline only. -/
theorem RuleGroup.toOption_ofCompact_congr {rule other : String}
    (h : RuleOutline.read rule.toList = RuleOutline.read other.toList) :
    (ofCompact rule).toOption = (ofCompact other).toOption := by
  unfold ofCompact
  rw [h]
  split
  · rfl
  split
  · rfl
  split
  · rfl
  split <;> rfl

/-- A text that does not begin with an angle bracket is no rule. -/
theorem RuleGroup.toOption_ofCompact_of_head? {cs : List Char} (h : (trim cs).head? ≠ some '<') :
    (ofCompact (String.ofList cs)).toOption = none := by
  have hinner : RuleOutline.inner? cs = none := by
    unfold RuleOutline.inner?
    split
    · next rest hrest => exact absurd (congrArg List.head? hrest) h
    · rfl
  simp only [ofCompact, String.toList_ofList, RuleOutline.read, hinner]
  rfl

namespace Specification

/-- A blank line and a comment are passed over, as they are no rules. -/
theorem ofLines_eq (content : String) : ofLines content = ofGroups
    ((lines content.toList).filterMap fun line =>
      (RuleGroup.ofCompact (String.ofList line)).toOption) := by
  unfold ofLines
  congr 1
  refine List.filterMap_congr fun line _ => ?_
  split
  · next hblank => rw [RuleGroup.toOption_ofCompact_of_head? (by simp [hblank])]
  · next hcomment => rw [RuleGroup.toOption_ofCompact_of_head? (by simp [hcomment])]
  · apply RuleGroup.toOption_ofCompact_congr
    rw [String.toList_ofList, String.toList_ofList, RuleOutline.read_trim]

theorem lenient_ofRules_lines (content : String) :
    (RuleFile.ofRules ((lines content.toList).map String.ofList)).lenient =
      .ok (ofLines content) := by
  rw [RuleFile.lenient_of_supported List.mem_cons_self, ofLines_eq]
  simp only [RuleFile.ofRules, List.map_map, List.filterMap_map]
  rfl

theorem strict_ofRules (rules : List String) :
    (RuleFile.ofRules rules).strict = (ofRules rules).mapError .rule := by
  have hrules : (rules.map RuleEntry.compact).mapM RuleEntry.group =
      rules.mapM RuleGroup.ofCompact := List.mapM_map
  rw [RuleFile.strict_of_supported List.mem_cons_self]
  simp only [RuleFile.ofRules, ofRules, hrules]
  cases rules.mapM RuleGroup.ofCompact <;> rfl

/-- The ways a specification comes to be loaded. -/
inductive Loaded : Specification → Prop where
  | strict {f : RuleFile} {spec : Specification} (file : f.strict = .ok spec) : Loaded spec
  | lenient {f : RuleFile} {spec : Specification} (file : f.lenient = .ok spec) : Loaded spec
  | yaml {text : String} {spec : Specification} (document : ofYaml text = .ok spec) : Loaded spec
  | json {text : String} {spec : Specification} (document : ofJson text = .ok spec) : Loaded spec
  | file {name : String} {content : Option ByteArray} {spec : Specification}
      (document : ofFile name content = .ok spec) : Loaded spec
  | lines (content : String) : Loaded (ofLines content)
  | rules {list : List String} {spec : Specification} (all : ofRules list = .ok spec) : Loaded spec

theorem exists_strict_of_yaml {text : String} {spec : Specification} (h : ofYaml text = .ok spec) :
    ∃ f : RuleFile, f.strict = .ok spec := by
  unfold ofYaml at h
  split at h
  · exact ⟨_, h⟩
  · cases h

theorem exists_strict_of_json {text : String} {spec : Specification} (h : ofJson text = .ok spec) :
    ∃ f : RuleFile, f.strict = .ok spec := by
  unfold ofJson at h
  split at h
  · exact ⟨_, h⟩
  · cases h

/-- All ways of loading come down to strict loading of some file. -/
theorem Loaded.exists_strict {spec : Specification} (h : spec.Loaded) :
    ∃ f : RuleFile, f.strict = .ok spec := by
  cases h with
  | strict file => exact ⟨_, file⟩
  | lenient file => exact ⟨_, RuleFile.strict_cleared.trans file⟩
  | yaml document => exact exists_strict_of_yaml document
  | json document => exact exists_strict_of_json document
  | file document =>
    unfold ofFile at document
    split at document
    · cases document
    split at document
    · exact exists_strict_of_json document
    · exact exists_strict_of_yaml document
  | lines content => exact ⟨_, RuleFile.strict_cleared.trans (lenient_ofRules_lines content)⟩
  | rules all => exact ⟨_, (strict_ofRules _).trans (by rw [all]; rfl)⟩

theorem mem_groups {spec : Specification} {g : RuleGroup} :
    g ∈ spec.groups ↔ ∃ signature, g ∈ spec.groupsFor signature := by
  have hvalues : spec.rules.values = spec.rules.toList.map Prod.snd := by
    have hfold : spec.rules.values = spec.rules.foldr (fun _ groups l => groups :: l) [] := rfl
    rw [hfold, TreeMap.foldr_eq_foldr_toList]
    induction spec.rules.toList with
    | nil => rfl
    | cons entry entries ih => exact congrArg (entry.2 :: ·) ih
  have hlookup : ∀ signature, g ∈ spec.groupsFor signature ↔
      ∃ groups, spec.rules[signature]? = some groups ∧ g ∈ groups := by
    intro signature
    unfold groupsFor
    cases spec.rules[signature]? <;> simp
  simp only [groups, hvalues, List.mem_flatten, List.mem_map, hlookup,
    ← TreeMap.mem_toList_iff_getElem?_eq_some]
  constructor
  · rintro ⟨groups, ⟨⟨signature, groups'⟩, hentry, rfl⟩, hg⟩
    exact ⟨signature, groups', hentry, hg⟩
  · rintro ⟨signature, groups, hentry, hg⟩
    exact ⟨groups, ⟨(signature, groups), hentry, rfl⟩, hg⟩

end Specification

theorem RuleEntry.exists_mem_on {entry : RuleEntry} {g : RuleGroup} (h : entry.group = .ok g) :
    ∃ sel, sel ∈ g.on := by
  cases entry with
  | compact rule =>
    obtain ⟨r, hadmissible, -, rfl⟩ := RuleGroup.ofCompact_eq_ok_iff.1 h
    obtain ⟨sel, hsel⟩ := hadmissible.triggered
    exact ⟨sel, OrderedSet.mem_ofList.2 (CompactRule.mem_selectors.2 hsel)⟩
  | structured signature on go =>
    simp only [group] at h
    split at h
    · cases h
    next hon =>
    obtain rfl := Except.ok.inj h
    obtain ⟨sel, hsel⟩ := List.exists_mem_of_ne_nil on (fun hnil => hon (hnil ▸ rfl))
    exact ⟨sel, OrderedSet.mem_ofList.2 hsel⟩

namespace Specification

/-- All loaders agree with each other, and what they load is well-formed. -/
theorem loaders_agree (f : RuleFile) (content : String) (list : List String) :
    ((∃ spec, f.strict = .ok spec) ↔
        f.version ∈ supportedRuleVersions ∧ ∀ entry ∈ f.rules, entry.Converts) ∧
      (∀ e, f.strict = .error e ↔
        (f.version ∉ supportedRuleVersions ∧ e = .unsupportedVersion f.version) ∨
          (f.version ∈ supportedRuleVersions ∧ ∃ entry cause, f.FailsFirst entry cause ∧
            e = .rule cause)) ∧
      ((∃ spec, f.lenient = .ok spec) ↔ f.version ∈ supportedRuleVersions) ∧
      f.lenient = f.cleared.strict ∧
      (∀ spec, f.strict = .ok spec → f.lenient = .ok spec) ∧
      (RuleFile.ofRules ((lines content.toList).map String.ofList)).lenient =
        .ok (ofLines content) ∧
      (RuleFile.ofRules list).strict = (ofRules list).mapError .rule ∧
      (∀ spec, f.strict = .ok spec → ∀ signature g, g ∈ spec.groupsFor signature ↔
        (∃ entry ∈ f.rules, entry.group = .ok g) ∧ g.signature = signature) ∧
      ∀ spec : Specification, spec.Loaded → ∀ g ∈ spec.groups,
        (∃ sel, sel ∈ g.on) ∧ ∀ signature, g ∈ spec.groupsFor signature ↔ g.signature = signature := by
  refine ⟨RuleFile.exists_strict_iff, fun e => RuleFile.strict_eq_error_iff, ?_,
    RuleFile.strict_cleared.symm, fun spec => RuleFile.lenient_of_strict,
    lenient_ofRules_lines content, strict_ofRules list,
    fun spec h _ _ => RuleFile.mem_groupsFor_of_strict h, ?_⟩
  · by_cases h : f.version ∈ supportedRuleVersions
    · rw [RuleFile.lenient_of_supported h]
      exact ⟨fun _ => h, fun _ => ⟨_, rfl⟩⟩
    · rw [RuleFile.lenient_of_unsupported h]
      exact ⟨nofun, fun hversion => absurd hversion h⟩
  · intro spec hloaded g hg
    obtain ⟨file, hfile⟩ := hloaded.exists_strict
    obtain ⟨signature, hsignature⟩ := mem_groups.1 hg
    obtain ⟨hentry, -⟩ := (RuleFile.mem_groupsFor_of_strict hfile).1 hsignature
    obtain ⟨entry, -, hgroup⟩ := id hentry
    refine ⟨RuleEntry.exists_mem_on hgroup, fun signature => ?_⟩
    rw [RuleFile.mem_groupsFor_of_strict hfile, and_iff_right hentry]

/-- Compact and written-out entries; the two in the middle lack an on-selector. -/
def mixedFile : RuleFile where
  version := 1
  rules := [.compact "\t<ON{B}A: void m(int)> ", .compact "<A: void m(GO{F}int)>",
    .structured ⟨"<A: void n()>"⟩ [] [⟨.forward, .result⟩],
    .structured ⟨"<A: void n()>"⟩ [⟨.forward, .base⟩] []]

theorem loaders_agree_mixed :
    mixedFile.strict = .error (.rule (.noTrigger "<A: void m(GO{F}int)>")) ∧
      ∃ spec, mixedFile.lenient = .ok spec ∧ mixedFile.cleared.strict = .ok spec ∧
        mixedFile.cleared.lenient = .ok spec ∧ spec.Loaded ∧
        ∃ g ∈ spec.groups, g ∈ spec.groupsFor ⟨"<A: void m(int)>"⟩ ∧
          g ∉ spec.groupsFor ⟨"<A: void n()>"⟩ ∧ ∃ sel, sel ∈ g.on := by
  obtain ⟨-, herror, hlenient, hcleared, -⟩ := loaders_agree mixedFile "" []
  obtain ⟨spec, hspec⟩ := hlenient.2 List.mem_cons_self
  have hstrict : mixedFile.cleared.strict = .ok spec := hcleared.symm.trans hspec
  obtain ⟨-, -, -, -, hsame, -, -, hgroups, hloaded⟩ := loaders_agree mixedFile.cleared "" []
  have hread : ∃ g, (RuleEntry.compact "\t<ON{B}A: void m(int)> ").group = .ok g ∧
      g.signature = ⟨"<A: void m(int)>"⟩ := ⟨_, rfl, by decide⟩
  obtain ⟨g, hg, hsignature⟩ := hread
  have hentry : .compact "\t<ON{B}A: void m(int)> " ∈ mixedFile.cleared.rules := by decide
  have hmem : g ∈ spec.groupsFor ⟨"<A: void m(int)>"⟩ :=
    (hgroups spec hstrict _ g).2 ⟨⟨_, hentry, hg⟩, hsignature⟩
  have hin : g ∈ spec.groups := mem_groups.2 ⟨_, hmem⟩
  obtain ⟨htrigger, hplace⟩ := hloaded spec (.strict hstrict) g hin
  have hfails : mixedFile.FailsFirst (.compact "<A: void m(GO{F}int)>")
      (.noTrigger "<A: void m(GO{F}int)>") :=
    ⟨[_], _, rfl, List.forall_mem_singleton.2 ⟨g, hg⟩, rfl⟩
  refine ⟨(herror _).2 (.inr ⟨List.mem_cons_self, _, _, hfails, rfl⟩), spec, hspec, hstrict,
    hsame spec hstrict, .strict hstrict, g, hin, hmem, ?_, htrigger⟩
  rw [hplace, hsignature]
  decide

end Specification

end GuidedDataflow
