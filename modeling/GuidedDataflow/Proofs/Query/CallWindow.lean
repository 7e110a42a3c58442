import Mathlib.Data.List.DropRight
import GuidedDataflow.Proofs.Query.CallString

/-!
Bounded call strings as windows on the call stack. Sites pushed one after another under a bound
leave the last sites of the whole string. When calls and returns alternate the window can be
shorter than that, since a return does not bring back a site that was forgotten; but it is always
an end of the stack, so that a return which it answers is a return to the true call site.
-/

namespace GuidedDataflow.CallString

section Pushes

/-- Pushes the sites one after another under the bound. -/
def pushAll (c : CallString) (sites : List StmtId) (bound : Nat) : CallString :=
  sites.foldl (fun c site => c.pushBounded site bound) c

variable (c : CallString) (bound : Nat)

theorem pushAll_concat (sites : List StmtId) (site : StmtId) :
    c.pushAll (sites ++ [site]) bound = (c.pushAll sites bound).pushBounded site bound := by
  simp [pushAll]

/-- To forget at every push comes to the same as to forget once in the end. -/
theorem pushAll_eq_truncate {sites : List StmtId} (hne : sites ≠ []) :
    c.pushAll sites bound = truncate ⟨c.sites ++ sites⟩ bound := by
  induction sites using List.reverseRecOn with
  | nil => exact absurd rfl hne
  | append_singleton sites site ih =>
    have hpush : push ⟨c.sites ++ sites⟩ site = ⟨c.sites ++ (sites ++ [site])⟩ := by
      simp [push]
    rw [pushAll_concat, ← hpush]
    by_cases hsites : sites = []
    · subst hsites
      simp [pushAll, pushBounded]
    · rw [ih hsites, pushBounded_truncate, pushBounded]

theorem sites_truncate : (c.truncate bound).sites = c.sites.rtake (min bound c.depth) := by
  have hdrop : c.depth - bound = c.sites.length - min bound c.depth := by
    unfold depth
    omega
  rw [truncate, List.rtake, hdrop]

end Pushes

/-- What the running program does to its call stack. -/
inductive Move where
  | enter (site : StmtId)
  | leave
deriving DecidableEq, Repr

namespace Move

/-- The window after the move. Leaving the empty window keeps it empty. -/
def onWindow (bound : Nat) (c : CallString) : Move → CallString
  | enter site => c.pushBounded site bound
  | leave =>
    match c.pop? with
    | some (_, caller) => caller
    | none => c

/-- The stack after the move, unless it would leave an empty one. -/
def onStack (stack : CallString) : Move → Option CallString
  | enter site => some (stack.push site)
  | leave => stack.pop?.map Prod.snd

end Move

/-- The window as the moves leave it, beginning with the empty one. -/
def windowAfter (bound : Nat) (moves : List Move) : CallString :=
  moves.foldl (Move.onWindow bound) empty

/-- The whole call stack after the moves, if none of them leaves an empty stack. -/
def stackAfter? (moves : List Move) : Option CallString := moves.foldlM Move.onStack empty

/-- The string is a window of bounded depth on the stack. -/
structure WindowOn (bound : Nat) (c stack : CallString) : Prop where
  isEnd : c.IsEnd stack
  depth_le : c.depth ≤ bound

namespace WindowOn

variable {bound : Nat} {c stack : CallString}

theorem empty (bound : Nat) : WindowOn bound .empty .empty := ⟨.refl _, Nat.zero_le _⟩

theorem move {stack' : CallString} (h : WindowOn bound c stack) {m : Move}
    (hm : m.onStack stack = some stack') : WindowOn bound (m.onWindow bound c) stack' := by
  cases m with
  | enter site =>
    obtain rfl : stack.push site = stack' := Option.some.inj hm
    exact ⟨(truncate_isEnd _ bound).trans (h.isEnd.push site), depth_pushBounded_le c site bound⟩
  | leave =>
    obtain ⟨⟨site, caller⟩, hpop, rfl⟩ := Option.map_eq_some_iff.1 hm
    obtain rfl := pop?_eq_some_iff.1 hpop
    -- the window ends in the site that is left, or there is nothing left of it
    rcases isEnd_push_iff.1 h.isEnd with rfl | ⟨outer, rfl, hend⟩
    · exact ⟨empty_isEnd _, Nat.zero_le _⟩
    · have hdepth := h.depth_le
      rw [depth_push] at hdepth
      rw [Move.onWindow, pop?_push]
      exact ⟨hend, Nat.le_of_succ_le hdepth⟩

theorem moves {stack' : CallString} (h : WindowOn bound c stack) {moves : List Move}
    (hmoves : moves.foldlM Move.onStack stack = some stack') :
    WindowOn bound (moves.foldl (Move.onWindow bound) c) stack' := by
  induction moves generalizing c stack with
  | nil =>
    obtain rfl : stack = stack' := Option.some.inj hmoves
    exact h
  | cons m moves ih =>
    rw [List.foldlM_cons] at hmoves
    obtain ⟨next, hm, hrest⟩ := Option.bind_eq_some_iff.1 hmoves
    exact ih (h.move hm) hrest

/-- A site that the window has on top is on top of the stack. -/
theorem pop?_stack (h : WindowOn bound c stack) {site : StmtId} {caller : CallString}
    (hpop : c.pop? = some (site, caller)) :
    ∃ caller', stack.pop? = some (site, caller') ∧ caller.IsEnd caller' := by
  obtain rfl := pop?_eq_some_iff.1 hpop
  obtain ⟨caller', rfl, hend⟩ := exists_push_of_isEnd h.isEnd
  exact ⟨caller', pop?_push caller' site, hend⟩

end WindowOn

/-- Bounded call strings are windows on the real stack: pushes leave the last sites of the whole
string, and at every moment of a run of calls and returns that never leaves an empty stack the
bounded string is an end of the stack, no deeper than the bound, and a return that it answers leads
to the true call site. -/
theorem pushBounded_windows (bound : Nat) :
    (∀ (c : CallString) (sites : List StmtId), sites ≠ [] →
      (c.pushAll sites bound).sites =
        (c.sites ++ sites).rtake (min bound (c.depth + sites.length))) ∧
    ∀ (earlier later : List Move), (stackAfter? (earlier ++ later)).isSome = true →
      ∃ stack, stackAfter? earlier = some stack ∧
        (windowAfter bound earlier).sites <:+ stack.sites ∧
        (windowAfter bound earlier).depth ≤ bound ∧
        ∀ site caller, (windowAfter bound earlier).pop? = some (site, caller) →
          ∃ caller', stack.pop? = some (site, caller') ∧ caller.sites <:+ caller'.sites := by
  refine ⟨fun c sites hne => ?_, fun earlier later hall => ?_⟩
  · have hdepth : depth ⟨c.sites ++ sites⟩ = c.depth + sites.length := List.length_append
    rw [pushAll_eq_truncate c bound hne, sites_truncate, hdepth]
  · obtain ⟨final, hfinal⟩ := Option.isSome_iff_exists.1 hall
    rw [stackAfter?, List.foldlM_append] at hfinal
    obtain ⟨stack, hstack, -⟩ := Option.bind_eq_some_iff.1 hfinal
    have hwindow : WindowOn bound (windowAfter bound earlier) stack :=
      (WindowOn.empty bound).moves hstack
    exact ⟨stack, hstack, hwindow.isEnd, hwindow.depth_le, fun site caller => hwindow.pop?_stack⟩

/-- The first site is forgotten at the third call, and two returns do not bring it back. -/
def forgetfulMoves : List Move := [.enter ⟨1⟩, .enter ⟨2⟩, .enter ⟨3⟩, .leave, .leave, .enter ⟨4⟩]

theorem pushBounded_windows_forgetful :
    (pushAll ⟨[⟨1⟩]⟩ [⟨2⟩, ⟨3⟩] 2).sites = [⟨2⟩, ⟨3⟩] ∧
      stackAfter? forgetfulMoves = some ⟨[⟨1⟩, ⟨4⟩]⟩ ∧
      windowAfter 2 forgetfulMoves = ⟨[⟨4⟩]⟩ ∧
      (windowAfter 2 forgetfulMoves).sites <:+ [⟨1⟩, ⟨4⟩] ∧
      ∃ caller, pop? ⟨[⟨1⟩, ⟨4⟩]⟩ = some (⟨4⟩, caller) := by
  obtain ⟨hpushes, hmoves⟩ := pushBounded_windows 2
  have hsites := hpushes ⟨[⟨1⟩]⟩ [⟨2⟩, ⟨3⟩] (by decide)
  have hstack : stackAfter? forgetfulMoves = some ⟨[⟨1⟩, ⟨4⟩]⟩ := by decide
  obtain ⟨stack, hstack', hend, -, hpop⟩ := hmoves forgetfulMoves [.leave, .leave] (by decide)
  obtain rfl : (⟨[⟨1⟩, ⟨4⟩]⟩ : CallString) = stack := Option.some.inj (hstack.symm.trans hstack')
  obtain ⟨caller, hcaller, -⟩ := hpop ⟨4⟩ empty (by decide)
  exact ⟨hsites, hstack, by decide, hend, caller, hcaller⟩

end GuidedDataflow.CallString
