import GuidedDataflow.Rule.Specification

/-!
Which groups a specification has for a signature: those added that belong to it, however often
and in whatever order they were added.
-/

namespace GuidedDataflow.Specification

open Std

variable {spec : Specification} {g added : RuleGroup} {signature : Signature}

theorem groupsFor_add : (spec.add added).groupsFor signature =
    if added.signature = signature then
      if added ∈ spec.groupsFor added.signature then spec.groupsFor added.signature
      else spec.groupsFor added.signature ++ [added]
    else spec.groupsFor signature := by
  unfold add groupsFor
  rw [TreeMap.getElem?_insert]
  simp only [Std.compare_eq_iff_eq]
  split <;> rfl

theorem mem_groupsFor_add : g ∈ (spec.add added).groupsFor signature ↔
    g ∈ spec.groupsFor signature ∨ (g = added ∧ added.signature = signature) := by
  rw [groupsFor_add]
  by_cases hsignature : added.signature = signature
  · subst hsignature
    rw [if_pos rfl]
    split
    · next hold => exact ⟨.inl, fun h => h.elim id fun heq => heq.1 ▸ hold⟩
    · rw [List.mem_append, List.mem_singleton, and_iff_left rfl]
  · rw [if_neg hsignature, or_iff_left fun h => hsignature h.2]

theorem mem_groupsFor_ofGroups {groups : List RuleGroup} :
    g ∈ (ofGroups groups).groupsFor signature ↔ g ∈ groups ∧ g.signature = signature := by
  have hfold : ∀ spec : Specification, g ∈ (groups.foldl add spec).groupsFor signature ↔
      g ∈ spec.groupsFor signature ∨ (g ∈ groups ∧ g.signature = signature) := by
    induction groups with
    | nil => simp
    | cons added groups ih =>
      intro spec
      rw [List.foldl_cons, ih, mem_groupsFor_add, List.mem_cons, or_assoc, or_and_right]
      refine or_congr_right (or_congr_left (and_congr_right ?_))
      rintro rfl
      rfl
  have hempty : g ∉ empty.groupsFor signature := by simp [empty, groupsFor]
  rw [ofGroups, hfold, or_iff_right hempty]

end GuidedDataflow.Specification
