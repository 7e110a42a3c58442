import GuidedDataflow.Query.CallString

/-!
How bounded call strings behave. Truncations compose to the smaller bound, and of a pushed
string a truncation keeps either the pushed site on top or nothing at all. A string that has
forgotten outer sites is an end of the one that has not, and stays one under pushes. Two strings
agree if one is an end of the other, as those of one call chain do whatever each has forgotten.
-/

namespace GuidedDataflow.CallString

variable (c : CallString) (site : StmtId)

@[simp] theorem depth_push : (c.push site).depth = c.depth + 1 := by
  simp [push, depth]

theorem push_ne_empty : c.push site ≠ empty := by
  simp [push, empty]

variable {c site} in
theorem push_inj {d : CallString} {site' : StmtId} :
    c.push site = d.push site' ↔ c = d ∧ site = site' := by
  constructor
  · intro h
    obtain ⟨hinit, hlast⟩ := List.append_inj' (congrArg sites h) rfl
    exact ⟨congrArg CallString.mk hinit, List.singleton_inj.1 hlast⟩
  · rintro ⟨rfl, rfl⟩
    rfl

@[simp] theorem truncate_zero : c.truncate 0 = empty := by
  simp [truncate, depth, empty]

@[simp] theorem truncate_empty (bound : Nat) : empty.truncate bound = empty := by
  simp [truncate, empty]

theorem truncate_of_depth_le {bound : Nat} (h : c.depth ≤ bound) : c.truncate bound = c := by
  have hdrop : c.depth - bound = 0 := by omega
  rw [truncate, hdrop, List.drop_zero]

theorem truncate_truncate (i j : Nat) : (c.truncate i).truncate j = c.truncate (min i j) := by
  have hdepth := c.depth_truncate i
  have hdrop : c.depth - i + ((c.truncate i).depth - j) = c.depth - min i j := by omega
  unfold truncate at hdrop ⊢
  rw [List.drop_drop, hdrop]

theorem truncate_push_succ (j : Nat) : (c.push site).truncate (j + 1) = (c.truncate j).push site := by
  have hdrop : (c.push site).depth - (j + 1) = c.depth - j := by
    rw [depth_push]
    omega
  have hle : c.depth - j ≤ c.sites.length := Nat.sub_le _ _
  rw [truncate, hdrop]
  simp only [push, truncate, List.drop_append_of_le_length hle]

theorem depth_pushBounded_le (bound : Nat) : (c.pushBounded site bound).depth ≤ bound := by
  rw [pushBounded, depth_truncate]
  exact Nat.min_le_left _ _

theorem truncate_pushBounded (bound j : Nat) :
    (c.pushBounded site bound).truncate (bound - j) = (c.push site).truncate (bound - j) := by
  rw [pushBounded, truncate_truncate, Nat.min_eq_right (Nat.sub_le _ _)]

variable {c site} in
theorem mem_pushBounded {s : StmtId} {bound : Nat} (h : s ∈ (c.pushBounded site bound).sites) :
    s ∈ c.sites ∨ s = site := by
  have : s ∈ c.sites ++ [site] := List.mem_of_mem_drop h
  simpa using this

/-- A string with room for one more site is pushed whole. -/
theorem pushBounded_of_depth_lt {bound : Nat} (h : c.depth < bound) :
    c.pushBounded site bound = c.push site :=
  truncate_of_depth_le _ (by rw [depth_push]; exact h)

/-- What a bounded push forgets may as well be forgotten before. -/
theorem pushBounded_truncate (bound : Nat) :
    (c.truncate bound).pushBounded site bound = c.pushBounded site bound := by
  cases bound with
  | zero => rw [pushBounded, pushBounded, truncate_zero, truncate_zero]
  | succ bound =>
    rw [pushBounded, pushBounded, truncate_push_succ, truncate_push_succ, truncate_truncate,
      Nat.min_eq_right (Nat.le_succ bound)]

variable {c site} in
theorem pop?_eq_some_iff {caller : CallString} :
    c.pop? = some (site, caller) ↔ c = caller.push site := by
  constructor
  · intro h
    obtain ⟨sites⟩ := c
    obtain rfl | ⟨sites, last, rfl⟩ := List.eq_nil_or_concat sites
    · cases h
    · have hpush : push ⟨sites⟩ last = ⟨sites.concat last⟩ :=
        congrArg CallString.mk List.concat_eq_append.symm
      rw [← hpush, pop?_push] at h
      obtain ⟨rfl, rfl⟩ := Prod.mk.inj (Option.some.inj h)
      exact hpush.symm
  · rintro rfl
    exact pop?_push caller site

variable {c} in
theorem pop?_eq_none_iff : c.pop? = none ↔ c = empty := by
  constructor
  · intro h
    rw [pop?, Option.map_eq_none_iff, List.getLast?_eq_none_iff] at h
    exact congrArg CallString.mk h
  · rintro rfl
    exact pop?_empty

/-- `c` is what may be left of `d` when outer sites are forgotten. -/
def IsEnd (c d : CallString) : Prop := c.sites <:+ d.sites

theorem empty_isEnd : empty.IsEnd c := List.nil_suffix

theorem truncate_isEnd (bound : Nat) : (c.truncate bound).IsEnd c := List.drop_suffix _ _

variable {c site} {d : CallString}

theorem isEnd_empty_iff : c.IsEnd empty ↔ c = empty := by
  constructor
  · intro h
    exact congrArg CallString.mk (List.suffix_nil.1 h)
  · rintro rfl
    exact empty_isEnd _

/-- An end of a pushed string has the pushed site on top, unless it is empty. -/
theorem isEnd_push_iff :
    c.IsEnd (d.push site) ↔
      c = empty ∨ ∃ outer : CallString, c = outer.push site ∧ outer.IsEnd d := by
  unfold IsEnd push
  rw [List.suffix_concat_iff]
  constructor
  · rintro (h | ⟨outer, h, hend⟩)
    · exact .inl (congrArg CallString.mk h)
    · exact .inr ⟨⟨outer⟩, congrArg CallString.mk h, hend⟩
  · rintro (rfl | ⟨outer, rfl, hend⟩)
    · exact .inl rfl
    · exact .inr ⟨outer.sites, rfl, hend⟩

/-- A string that ends in a pushed one has the pushed site on top as well. -/
theorem exists_push_of_isEnd (h : (c.push site).IsEnd d) :
    ∃ outer : CallString, d = outer.push site ∧ c.IsEnd outer := by
  obtain ⟨front, hfront⟩ := h
  refine ⟨⟨front ++ c.sites⟩, ?_, List.suffix_append _ _⟩
  exact congrArg CallString.mk (by rw [← hfront, push, List.append_assoc])

namespace IsEnd

theorem refl (c : CallString) : c.IsEnd c := List.suffix_rfl

theorem trans {e : CallString} (h : c.IsEnd d) (h' : d.IsEnd e) : c.IsEnd e :=
  List.IsSuffix.trans h h'

theorem push (h : c.IsEnd d) (site : StmtId) : (c.push site).IsEnd (d.push site) :=
  List.suffix_append_self_iff.2 h

theorem truncate (h : c.IsEnd d) {i j : Nat} (hij : i ≤ j) :
    (c.truncate i).IsEnd (d.truncate j) := by
  have hdepth : c.depth ≤ d.depth := List.IsSuffix.length_le h
  have hle : (c.truncate i).depth ≤ (d.truncate j).depth := by
    rw [depth_truncate, depth_truncate]
    omega
  exact List.suffix_of_suffix_length_le ((c.truncate_isEnd i).trans h) (d.truncate_isEnd j) hle

theorem pushBounded (h : c.IsEnd d) (site : StmtId) {i j : Nat} (hij : i ≤ j) :
    (c.pushBounded site i).IsEnd (d.pushBounded site j) :=
  (h.push site).truncate hij

theorem eq_of_depth_le (h : c.IsEnd d) (hle : d.depth ≤ c.depth) : c = d :=
  congrArg CallString.mk (List.IsSuffix.eq_of_length_le h hle)

end IsEnd

/-- The strings differ in nothing but in how many outer sites they have forgotten. -/
def Agrees (c d : CallString) : Prop := c.IsEnd d ∨ d.IsEnd c

namespace Agrees

theorem refl (c : CallString) : c.Agrees c := .inl (.refl c)

theorem empty_right (c : CallString) : c.Agrees empty := .inr (empty_isEnd c)

theorem empty_left (c : CallString) : empty.Agrees c := .inl (empty_isEnd c)

theorem pushBounded (h : c.Agrees d) (site : StmtId) (bound : Nat) :
    (c.pushBounded site bound).Agrees (d.pushBounded site bound) :=
  h.imp (·.pushBounded site (Nat.le_refl _)) (·.pushBounded site (Nat.le_refl _))

/-- A string within the bound that agrees with a cut one agrees with the whole one. -/
theorem of_truncate {bound : Nat} (hd : d.depth ≤ bound) (h : (c.truncate bound).Agrees d) :
    c.Agrees d := by
  rcases Nat.le_total c.depth bound with hle | hle
  · rwa [truncate_of_depth_le _ hle] at h
  · have hdepth : d.depth ≤ (c.truncate bound).depth := by
      rw [depth_truncate, Nat.min_eq_left hle]
      exact hd
    rcases h with h | h
    · exact .inr ((h.eq_of_depth_le hdepth) ▸ c.truncate_isEnd bound)
    · exact .inr (h.trans (c.truncate_isEnd bound))

/-- A string that agrees with a pushed one has the pushed site on top, unless it is empty. -/
theorem of_push (h : (c.push site).Agrees d) :
    d = empty ∨ ∃ outer : CallString, d = outer.push site ∧ c.Agrees outer := by
  rcases h with h | h
  · obtain ⟨outer, hd, hend⟩ := exists_push_of_isEnd h
    exact .inr ⟨outer, hd, .inl hend⟩
  · exact (isEnd_push_iff.1 h).imp_right fun ⟨outer, hd, hend⟩ => ⟨outer, hd, .inr hend⟩

theorem of_pushBounded {bound : Nat} (hd : d.depth ≤ bound)
    (h : (c.pushBounded site bound).Agrees d) :
    d = empty ∨ ∃ outer : CallString, d = outer.push site ∧ c.Agrees outer := by
  cases bound with
  | zero => exact .inl (congrArg CallString.mk (List.length_eq_zero_iff.1 (Nat.le_zero.1 hd)))
  | succ bound =>
    rw [CallString.pushBounded, truncate_push_succ] at h
    refine (of_push h).imp_right fun ⟨outer, houter, hagrees⟩ => ⟨outer, houter, ?_⟩
    rw [houter, depth_push] at hd
    exact hagrees.of_truncate (Nat.le_of_succ_le_succ hd)

end Agrees

end GuidedDataflow.CallString
