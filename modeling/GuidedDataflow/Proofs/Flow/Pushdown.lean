import Mathlib.Logic.Relation
import GuidedDataflow.Proofs.Query.CallString

/-!
Call graphs run with bounded call strings. A run keeps to matching calls and returns only as
deep as its call string reaches, so a balanced path carries its exact nesting depth: calls
that hold fewer levels than the bound return to their own site, deeper ones to any. From an
unknown caller a run first returns out of methods and then calls into others. Turning every
arrow round turns such runs round, although the call strings met on the way differ.
-/

namespace GuidedDataflow

/-- Steps between nodes: within a method, into a callee by a call, and back to a call. -/
structure CallGraph (α : Type) where
  within : α → α → Prop
  enter : α → StmtId → α → Prop
  leave : α → StmtId → α → Prop

namespace CallGraph

variable {α : Type} (G : CallGraph α) (k : Nat)

/-- The graph with every arrow turned round; a call becomes a return. -/
def converse : CallGraph α where
  within a b := G.within b a
  enter a site b := G.leave b site a
  leave a site b := G.enter b site a

/-- Steps under call strings of at most `k` sites. An empty string returns to any site. -/
inductive Step : α × CallString → α × CallString → Prop
  | within {a b : α} {c : CallString} (h : G.within a b) : Step (a, c) (b, c)
  | enter {a b : α} {site : StmtId} {c : CallString} (h : G.enter a site b) :
      Step (a, c) (b, c.pushBounded site k)
  | leave {a b : α} {site : StmtId} {c : CallString} (h : G.leave a site b) :
      Step (a, c.push site) (b, c)
  | leaveUnknown {a b : α} {site : StmtId} (h : G.leave a site b) : Step (a, .empty) (b, .empty)

/-- Paths whose calls all return, with their nesting depth. A call whose inside is shallow
enough to leave its site in the call string returns to that site. -/
inductive Balanced : Nat → α → α → Prop
  | refl (a : α) : Balanced 0 a a
  | within {d : Nat} {a b c : α} (path : Balanced d a b) (h : G.within b c) : Balanced d a c
  | nest {d e : Nat} {a b x y z : α} {site site' : StmtId} (path : Balanced d a b)
      (call : G.enter b site x) (inside : Balanced e x y) (back : G.leave y site' z)
      (matched : e < k → site = site') : Balanced (max d (e + 1)) a z

/-- Balanced paths and returns. -/
def Ascends : α → α → Prop :=
  Relation.ReflTransGen fun a b => (∃ d, G.Balanced k d a b) ∨ ∃ site, G.leave a site b

/-- Balanced paths and calls. -/
def Descends : α → α → Prop :=
  Relation.ReflTransGen fun a b => (∃ d, G.Balanced k d a b) ∨ ∃ site, G.enter a site b

/-- Where a run from `a` under the empty string stands: it has ascended, and each call that
it has not left since is a frame whose site is in the string as far as what was nested in it
left it there. -/
inductive Pending (a : α) : CallString → α → Prop
  | ground {b : α} (h : G.Ascends k a b) : Pending a .empty b
  | frame {c : CallString} {b x y : α} {site : StmtId} {d : Nat} (outer : Pending a c b)
      (call : G.enter b site x) (inside : G.Balanced k d x y) :
      Pending a ((c.pushBounded site k).truncate (k - d)) y

variable {G k}

namespace Balanced

theorem trans {d e : Nat} {a b c : α} (h : G.Balanced k d a b) (h' : G.Balanced k e b c) :
    G.Balanced k (max d e) a c := by
  induction h' with
  | refl => rwa [Nat.max_zero]
  | within _ hs ih => exact (ih h).within hs
  | @nest d' e' _ _ _ _ _ _ _ _ call inside back matched ih _ =>
    rw [← Nat.max_assoc]
    exact (ih h).nest call inside back matched

/-- One call and its return around a balanced path. -/
theorem single {e : Nat} {b x y z : α} {site site' : StmtId} (call : G.enter b site x)
    (inside : G.Balanced k e x y) (back : G.leave y site' z) (matched : e < k → site = site') :
    G.Balanced k (e + 1) b z := by
  have h := (Balanced.refl b).nest call inside back matched
  rwa [Nat.zero_max] at h

theorem converse {d : Nat} {a b : α} (h : G.Balanced k d a b) : G.converse.Balanced k d b a := by
  induction h with
  | refl a => exact .refl a
  | within _ hs ih =>
    have hstep := (Balanced.refl (G := G.converse) (k := k) _).within hs
    have h := hstep.trans ih
    rwa [Nat.zero_max] at h
  | nest _ call _ back matched ih ihInside =>
    have hnest : G.converse.Balanced k _ _ _ :=
      single back ihInside call fun h => (matched h).symm
    rw [Nat.max_comm]
    exact hnest.trans ih

end Balanced

theorem balanced_converse_iff {d : Nat} {a b : α} :
    G.converse.Balanced k d b a ↔ G.Balanced k d a b :=
  ⟨Balanced.converse, Balanced.converse⟩

theorem ascends_converse_iff {a b : α} : G.converse.Ascends k b a ↔ G.Descends k a b := by
  unfold Ascends Descends
  rw [← Relation.reflTransGen_swap]
  simp only [balanced_converse_iff]
  rfl

theorem descends_converse_iff {a b : α} : G.converse.Descends k b a ↔ G.Ascends k a b :=
  ascends_converse_iff.symm

/-- After a call and a balanced path inside it, the call's site is on top of the string if the
path was shallow enough; else nothing is left. -/
theorem truncate_entered (c : CallString) (site : StmtId) (e : Nat) :
    (e < k ∧ (c.pushBounded site k).truncate (k - e) = (c.truncate (k - (e + 1))).push site) ∨
      (k ≤ e ∧ (c.pushBounded site k).truncate (k - e) = .empty) := by
  rw [CallString.truncate_pushBounded]
  by_cases he : e < k
  · have hroom : k - e = k - (e + 1) + 1 := by omega
    exact .inl ⟨he, by rw [hroom, CallString.truncate_push_succ]⟩
  · have hfull : k - e = 0 := by omega
    exact .inr ⟨Nat.le_of_not_lt he, by rw [hfull, CallString.truncate_zero]⟩

/-- A balanced path can be run under every string, and cuts it by its depth. -/
theorem Balanced.run {d : Nat} {a b : α} (h : G.Balanced k d a b) {c : CallString}
    (hc : c.depth ≤ k) :
    Relation.ReflTransGen (G.Step k) (a, c) (b, c.truncate (k - d)) := by
  induction h generalizing c with
  | refl a =>
    rw [Nat.sub_zero, CallString.truncate_of_depth_le c hc]
  | within _ hs ih => exact (ih hc).tail (.within hs)
  | @nest d e a b x y z site site' _ call _ back matched ih ihInside =>
    have hentered := (ih hc).tail (.enter call)
    have hinside := hentered.trans (ihInside (CallString.depth_pushBounded_le _ _ _))
    have hcut : (c.truncate (k - d)).truncate (k - (e + 1)) = c.truncate (k - max d (e + 1)) := by
      rw [CallString.truncate_truncate]
      congr 1
      omega
    rw [← hcut]
    rcases truncate_entered (k := k) (c.truncate (k - d)) site e with ⟨he, htop⟩ | ⟨he, hempty⟩
    · rw [htop, matched he] at hinside
      exact hinside.tail (.leave back)
    · have hfull : k - (e + 1) = 0 := by omega
      rw [hempty] at hinside
      rw [hfull, CallString.truncate_zero]
      exact hinside.tail (.leaveUnknown back)

namespace Pending

variable {a b b' : α} {c c' : CallString}

theorem depth_le (h : G.Pending k a c b) : c.depth ≤ k := by
  cases h with
  | ground => exact Nat.zero_le k
  | frame =>
    rw [CallString.depth_truncate]
    omega

theorem balanced (h : G.Pending k a c b) {d : Nat} (path : G.Balanced k d b b') :
    G.Pending k a (c.truncate (k - d)) b' := by
  cases h with
  | ground h =>
    rw [CallString.truncate_empty]
    exact .ground (h.tail (.inl ⟨d, path⟩))
  | @frame _ _ _ _ _ d' outer call inside =>
    have hmin : min (k - d') (k - d) = k - max d' d := by omega
    rw [CallString.truncate_truncate, hmin]
    exact .frame outer call (inside.trans path)

theorem step (h : G.Pending k a c b) (hs : G.Step k (b, c) (b', c')) : G.Pending k a c' b' := by
  cases hs with
  | within hw =>
    have hstep := h.balanced ((Balanced.refl b).within hw)
    rwa [Nat.sub_zero, CallString.truncate_of_depth_le c h.depth_le] at hstep
  | enter call =>
    have hframe := Pending.frame h call (Balanced.refl b')
    rwa [Nat.sub_zero, CallString.truncate_of_depth_le _ (CallString.depth_pushBounded_le _ _ _)]
      at hframe
  | @leave _ _ site' _ back =>
    generalize hpush : c'.push site' = top at h
    cases h with
    | ground h => exact (CallString.push_ne_empty _ _ hpush).elim
    | @frame c₀ _ _ _ site d outer call inside =>
      rcases truncate_entered (k := k) c₀ site d with ⟨hd, htop⟩ | ⟨hd, hempty⟩
      · rw [htop] at hpush
        obtain ⟨rfl, rfl⟩ := CallString.push_inj.1 hpush
        exact outer.balanced (.single call inside back fun _ => rfl)
      · rw [hempty] at hpush
        exact (CallString.push_ne_empty _ _ hpush).elim
  | leaveUnknown back =>
    generalize hempty : CallString.empty = top at h
    cases h with
    | ground h => exact .ground (h.tail (.inr ⟨_, back⟩))
    | @frame c₀ _ _ _ site d outer call inside =>
      rcases truncate_entered (k := k) c₀ site d with ⟨hd, htop⟩ | ⟨hd, -⟩
      · rw [htop] at hempty
        exact (CallString.push_ne_empty _ _ hempty.symm).elim
      · have hleft := outer.balanced (.single call inside back fun hlt => by omega)
        have hfull : k - (d + 1) = 0 := by omega
        rwa [hfull, CallString.truncate_zero, hempty] at hleft

theorem of_run {s : α × CallString} (h : Relation.ReflTransGen (G.Step k) (a, .empty) s) :
    G.Pending k a s.2 s.1 := by
  induction h with
  | refl => exact .ground .refl
  | tail _ hs ih => exact ih.step hs

theorem ascends_descends (h : G.Pending k a c b) : ∃ m, G.Ascends k a m ∧ G.Descends k m b := by
  induction h with
  | ground h => exact ⟨_, h, .refl⟩
  | frame _ call inside ih =>
    obtain ⟨m, hup, hdown⟩ := ih
    exact ⟨m, hup, (hdown.tail (.inr ⟨_, call⟩)).tail (.inl ⟨_, inside⟩)⟩

end Pending

theorem Ascends.run {a m : α} (h : G.Ascends k a m) :
    Relation.ReflTransGen (G.Step k) (a, .empty) (m, .empty) := by
  induction h with
  | refl => exact .refl
  | tail _ hs ih =>
    rcases hs with ⟨d, path⟩ | ⟨site, back⟩
    · have hpath := path.run (c := .empty) (Nat.zero_le k)
      rw [CallString.truncate_empty] at hpath
      exact ih.trans hpath
    · exact ih.tail (.leaveUnknown back)

theorem Descends.run {m b : α} (h : G.Descends k m b) :
    ∃ c, c.depth ≤ k ∧ Relation.ReflTransGen (G.Step k) (m, .empty) (b, c) := by
  induction h with
  | refl => exact ⟨.empty, Nat.zero_le k, .refl⟩
  | tail _ hs ih =>
    obtain ⟨c, hc, hrun⟩ := ih
    rcases hs with ⟨d, path⟩ | ⟨site, call⟩
    · refine ⟨c.truncate (k - d), ?_, hrun.trans (path.run hc)⟩
      rw [CallString.depth_truncate]
      omega
    · exact ⟨_, CallString.depth_pushBounded_le _ _ _, hrun.tail (.enter call)⟩

/-- From an unknown caller runs ascend, and then descend. -/
theorem run_iff_ascends_descends {a b : α} :
    (∃ c, Relation.ReflTransGen (G.Step k) (a, .empty) (b, c)) ↔
      ∃ m, G.Ascends k a m ∧ G.Descends k m b := by
  constructor
  · rintro ⟨c, h⟩
    exact (Pending.of_run h).ascends_descends
  · rintro ⟨m, hup, hdown⟩
    obtain ⟨c, -, hrun⟩ := hdown.run
    exact ⟨c, hup.run.trans hrun⟩

/-- Runs turn round with the graph. -/
theorem run_converse_iff {a b : α} :
    (∃ c, Relation.ReflTransGen (G.converse.Step k) (b, .empty) (a, c)) ↔
      ∃ c, Relation.ReflTransGen (G.Step k) (a, .empty) (b, c) := by
  rw [run_iff_ascends_descends, run_iff_ascends_descends]
  constructor
  · rintro ⟨m, hup, hdown⟩
    exact ⟨m, descends_converse_iff.1 hdown, ascends_converse_iff.1 hup⟩
  · rintro ⟨m, hup, hdown⟩
    exact ⟨m, ascends_converse_iff.2 hdown, descends_converse_iff.2 hup⟩

end CallGraph

end GuidedDataflow
