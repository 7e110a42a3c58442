import Mathlib.Data.List.DropRight
import GuidedDataflow.Proofs.Program.Listing

/-!
When control falls through to a new statement. Within one part of a method a statement follows
the one before it unless that returns or fall-through has been switched off since. Taking a method
up again lets control fall through, whether or not it was switched off before.
-/

namespace GuidedDataflow

namespace Instruction

/-- Whether the instruction writes a statement. -/
def writes : Instruction → Bool
  | edge .. | noFallthrough => false
  | _ => true

/-- Behind `n` statements, the instruction joins only statements that exist. -/
def JoinsBelow (n : Nat) : Instruction → Prop
  | edge source target => source.index < n ∧ target.index < n
  | _ => True

instance decidableJoinsBelow (n : Nat) : (i : Instruction) → Decidable (i.JoinsBelow n)
  | edge .. => inferInstanceAs (Decidable (_ ∧ _))
  | this _ | parameter _ | assign _ _ | invoke _ _ | ret _ | nop | noFallthrough => .isTrue trivial

/-- Behind `n` statements, each edge joins statements that exist by then. -/
def EdgesExist (n : Nat) : List Instruction → Prop
  | [] => True
  | i :: is => i.JoinsBelow n ∧ EdgesExist (n + if i.writes then 1 else 0) is

instance decidableEdgesExist (n : Nat) : (is : List Instruction) → Decidable (EdgesExist n is)
  | [] => .isTrue trivial
  | i :: is =>
    @instDecidableAnd _ _ (i.decidableJoinsBelow n)
      (decidableEdgesExist (n + if i.writes then 1 else 0) is)

theorem edgesExist_append {n : Nat} {is js : List Instruction} :
    EdgesExist n (is ++ js) ↔ EdgesExist n is ∧ EdgesExist (n + is.countP writes) js := by
  induction is generalizing n with
  | nil => simp [EdgesExist]
  | cons i is ih =>
    rw [List.cons_append, EdgesExist, EdgesExist, ih, List.countP_cons, and_assoc]
    rw [Nat.add_assoc, Nat.add_comm (if i.writes = true then 1 else 0)]

/-- Fall-through is switched off behind the last statement that the instructions write. -/
def HeldBack (is : List Instruction) : Prop := noFallthrough ∈ is.rtakeWhile (!·.writes)

instance (is : List Instruction) : Decidable (HeldBack is) := inferInstanceAs (Decidable (_ ∈ _))

theorem heldBack_concat {is : List Instruction} {i : Instruction} :
    HeldBack (is ++ [i]) ↔ i.writes = false ∧ (HeldBack is ∨ i = noFallthrough) := by
  unfold HeldBack
  rw [List.rtakeWhile_concat]
  cases hi : i.writes with
  | true => simp
  | false => simp [eq_comm]

/-- What was switched off before stays so until the next statement is written. -/
theorem heldBack_append {is js : List Instruction} :
    HeldBack (is ++ js) ↔ HeldBack js ∨ (HeldBack is ∧ ∀ j ∈ js, j.writes = false) := by
  induction js using List.reverseRecOn with
  | nil => simp [HeldBack]
  | append_singleton js j ih =>
    rw [← List.append_assoc, heldBack_concat, ih, heldBack_concat]
    simp only [List.forall_mem_append, List.forall_mem_singleton]
    tauto

end Instruction

namespace Program

open Instruction

variable {p q : Program} {c d : Cursor} {i : Instruction} {is js : List Instruction}
  {signature : Signature}

/-- An instruction that writes adds a statement at the cursor. -/
theorem execute_of_writes (h : i.writes = true) : ∃ d action, d.method = c.method ∧
    d.last = c.last ∧ d.fallsThrough = c.fallsThrough ∧
      p.execute c i = .ok (p.emit d action) := by
  cases i with
  | edge => cases h
  | noFallthrough => cases h
  | parameter name => exact ⟨{ c with nextParameter := c.nextParameter + 1 }, _, rfl, rfl, rfl, rfl⟩
  | _ => exact ⟨c, _, rfl, rfl, rfl, rfl⟩

theorem statement?_emit (p : Program) (c : Cursor) (action : Action) (id : StmtId) :
    (p.emit c action).1.statement? id = (p.append c.method action).statement? id := by
  rcases p.emit_cases c action with h | ⟨prev, -, h⟩
  · rw [h]
  · rw [h, statement?_link]

theorem size_emit (p : Program) (c : Cursor) (action : Action) :
    (p.emit c action).1.size = p.size + 1 := by
  rcases p.emit_cases c action with h | ⟨prev, -, h⟩
  · rw [h, size_append]
  · rw [h, size_link, size_append]

/-- Of a new statement's edges there is at most the one from the statement before the cursor. -/
theorem mem_succsOf_emit (hp : p.WellFormed) (hc : c.Fits p) {action : Action} {a b : StmtId} :
    b ∈ (p.emit c action).1.succsOf a ↔ b ∈ p.succsOf a ∨
      (b = p.nextId ∧ c.last = some a ∧ c.fallsThrough = true ∧
        (p.statement? a).any Statement.isReturn = false) := by
  unfold emit
  dsimp only
  split
  · next hnone => simp [hnone]
  · next prev hprev =>
    have hlt := last_lt hp hc hprev
    have hold : (p.append c.method action).statement? prev = p.statement? prev := by
      rw [statement?_append, if_neg]
      rintro rfl
      exact Nat.lt_irrefl _ hlt
    rw [hold, hprev]
    split
    · next hfalls =>
      rw [Bool.and_eq_true, Bool.not_eq_true'] at hfalls
      have hsize : prev.index < (p.append c.method action).succs.size := by
        rw [(hp.append action hc.declared).size_succs, size_append]
        omega
      rw [mem_succsOf_link hsize, succsOf_append]
      refine or_congr_right ⟨?_, ?_⟩
      · rintro ⟨rfl, rfl⟩
        exact ⟨rfl, rfl, hfalls⟩
      · rintro ⟨rfl, heq, -⟩
        exact ⟨(Option.some.inj heq).symm, rfl⟩
    · next hstops =>
      rw [succsOf_append]
      refine (or_iff_left ?_).symm
      rintro ⟨-, heq, hfalls⟩
      obtain rfl := Option.some.inj heq
      exact hstops (by rw [hfalls.1, hfalls.2]; rfl)

/-- The cursor knows the instructions of its part since the last statement. -/
theorem fallsThrough_execute (hc : c.fallsThrough = true ↔ ¬ HeldBack is)
    (h : p.execute c i = .ok (q, d)) :
    d.method = c.method ∧ (d.fallsThrough = true ↔ ¬ HeldBack (is ++ [i])) := by
  rw [heldBack_concat]
  cases hi : i.writes with
  | true =>
    obtain ⟨e, action, hmethod, -, -, he⟩ := execute_of_writes (p := p) (c := c) hi
    obtain rfl : (p.emit e action).2 = d := congrArg Prod.snd (Except.ok.inj (he.symm.trans h))
    exact ⟨hmethod, by simp [emit]⟩
  | false =>
    cases i with
    | edge source target =>
      simp only [execute] at h
      split at h
      · obtain rfl : c = d := congrArg Prod.snd (Except.ok.inj h)
        exact ⟨rfl, by simpa using hc⟩
      · cases h
    | noFallthrough =>
      obtain rfl : { c with fallsThrough := false } = d := congrArg Prod.snd (Except.ok.inj h)
      exact ⟨rfl, by simp⟩
    | _ => cases hi

theorem fallsThrough_executeAll (hc : c.fallsThrough = true ↔ ¬ HeldBack is)
    (h : p.executeAll c js = .ok (q, d)) :
    d.method = c.method ∧ (d.fallsThrough = true ↔ ¬ HeldBack (is ++ js)) := by
  induction js generalizing p c is with
  | nil =>
    obtain rfl : c = d := congrArg Prod.snd (Except.ok.inj h)
    exact ⟨rfl, by simpa using hc⟩
  | cons j js ih =>
    simp only [executeAll] at h
    split at h
    · next r e hj =>
      obtain ⟨hmethod, hfalls⟩ := fallsThrough_execute hc hj
      obtain ⟨hmethod', hfalls'⟩ := ih hfalls h
      rw [List.append_assoc] at hfalls'
      exact ⟨hmethod'.trans hmethod, hfalls'⟩
    · cases h

theorem executeAll_concat : p.executeAll c (is ++ [i]) =
    match p.executeAll c is with
    | .ok (q, d) => q.execute d i
    | .error e => .error e := by
  induction is generalizing p c with
  | nil =>
    simp only [List.nil_append, executeAll]
    split <;> simp_all
  | cons j is ih =>
    simp only [List.cons_append, executeAll]
    split
    · exact ih
    · rfl

theorem execute_ok (h : i.JoinsBelow p.size) : ∃ q d, p.execute c i = .ok (q, d) ∧
    q.size = p.size + if i.writes then 1 else 0 := by
  cases hi : i.writes with
  | true =>
    obtain ⟨e, action, -, -, -, he⟩ := execute_of_writes (p := p) (c := c) hi
    exact ⟨_, _, he, size_emit p e action⟩
  | false =>
    cases i with
    | edge source target =>
      refine ⟨p.link source target, c, ?_, size_link p source target⟩
      rw [execute]
      exact if_pos h
    | noFallthrough => exact ⟨_, _, rfl, rfl⟩
    | _ => cases hi

/-- Instructions whose edges join statements that exist all succeed. -/
theorem executeAll_ok (h : EdgesExist p.size is) : ∃ q d, p.executeAll c is = .ok (q, d) ∧
    q.size = p.size + is.countP writes := by
  induction is generalizing p c with
  | nil => exact ⟨p, c, rfl, rfl⟩
  | cons i is ih =>
    obtain ⟨hi, his⟩ := h
    obtain ⟨q, d, hq, hsize⟩ := execute_ok (c := c) hi
    rw [← hsize] at his
    obtain ⟨r, e, hr, hsize'⟩ := ih (c := d) his
    refine ⟨r, e, ?_, ?_⟩
    · simp only [executeAll, hq, hr]
    · rw [hsize', hsize, List.countP_cons]
      omega

theorem extend_eq_ok : p.extend signature is = .ok q ↔ ∃ d,
    (p.declare signature).executeAll (.atEnd (p.declare signature) signature) is = .ok (q, d) := by
  unfold extend
  dsimp only
  cases (p.declare signature).executeAll (.atEnd (p.declare signature) signature) is with
  | error e => simp [Except.map]
  | ok r => simp [Except.map, Prod.ext_iff]

theorem foldlM_extend_ok {parts : List (Signature × List Instruction)}
    (h : EdgesExist p.size (parts.flatMap Prod.snd)) : ∃ q,
    parts.foldlM (fun p part => p.extend part.1 part.2) p = .ok q := by
  induction parts generalizing p with
  | nil => exact ⟨p, rfl⟩
  | cons part parts ih =>
    rw [List.flatMap_cons, edgesExist_append] at h
    obtain ⟨q, d, hq, hsize⟩ := executeAll_ok (p := p.declare part.1)
      (c := .atEnd (p.declare part.1) part.1) h.1
    have hsize : q.size = p.size + part.2.countP writes := hsize
    obtain ⟨r, hr⟩ := ih (hsize ▸ h.2)
    refine ⟨r, ?_⟩
    rw [List.foldlM_cons, extend_eq_ok.2 ⟨d, hq⟩]
    exact hr

theorem build_ok {parts : List (Signature × List Instruction)}
    (h : EdgesExist 0 (parts.flatMap Prod.snd)) : ∃ q, build parts = .ok q :=
  foldlM_extend_ok (p := empty) h

theorem build_concat {before : List (Signature × List Instruction)} :
    build (before ++ [(signature, is)]) = .ok q ↔
      ∃ p, build before = .ok p ∧ p.extend signature is = .ok q := by
  unfold build
  rw [List.foldlM_append]
  cases List.foldlM (fun p part => p.extend part.1 part.2) empty before with
  | error e => simp [bind, Except.bind]
  | ok p =>
    simp only [bind, Except.bind, List.foldlM_cons, List.foldlM_nil, pure, Except.pure,
      Except.ok.injEq, exists_eq_left']
    split
    · next e he => simp [he]
    · next r hr => simp [hr]

/-- The last statement of the method so far. -/
def lastOf? (p : Program) (signature : Signature) : Option StmtId :=
  (p.method? signature).bind (·.body.getLast?)

/-- Control falls through to the next statement of the method: its last statement does not return,
and the instructions have not switched fall-through off since. -/
structure FallsThrough (p : Program) (signature : Signature) (is : List Instruction)
    (last : StmtId) : Prop where
  isLast : p.lastOf? signature = some last
  goesOn : (p.statement? last).any Statement.isReturn = false
  allowed : ¬ HeldBack is

/-- A part writes its next statement at the end of its method. Of the instructions for the method
only those of the part itself decide whether control falls through to it. -/
theorem build_writes {before : List (Signature × List Instruction)}
    (h : build (before ++ [(signature, is)]) = .ok q) (hi : i.writes = true) :
    ∃ r, build (before ++ [(signature, is ++ [i])]) = .ok r ∧ r.size = q.size + 1 ∧
      (∃ s, r.statement? q.nextId = some s ∧ s.method = signature) ∧
      ∀ a b, b ∈ r.succsOf a ↔
        b ∈ q.succsOf a ∨ (b = q.nextId ∧ q.FallsThrough signature is a) := by
  obtain ⟨p, hp, hq⟩ := build_concat.1 h
  obtain ⟨c, hc⟩ := extend_eq_ok.1 hq
  have hdeclared := (built_of_build hp).declare signature
  obtain ⟨hbuilt, hfits⟩ := executeAll_built hdeclared (atEnd_fits p signature) hc
  have hstart : (Cursor.atEnd (p.declare signature) signature).fallsThrough = true ↔
      ¬ HeldBack [] := by simp [Cursor.atEnd, HeldBack]
  obtain ⟨hmethod, hfalls⟩ := fallsThrough_executeAll hstart hc
  have hmethod : c.method = signature := hmethod
  obtain ⟨d, action, hsame, hlast, hthrough, hexecute⟩ := execute_of_writes (p := q) (c := c) hi
  have hd : d.Fits q := ⟨hsame ▸ hfits.declared, by rw [hsame, hlast]; exact hfits.last⟩
  have hlastOf : d.last = q.lastOf? signature := by
    obtain ⟨method, hm⟩ := hfits.declared
    rw [hlast, hfits.last method hm, lastOf?, ← hmethod, hm, Option.bind_some]
  have hnew : (q.emit d action).1.statement? q.nextId = some ⟨q.nextId, d.method, action⟩ := by
    rw [statement?_emit]
    exact statement?_append_next q d.method action
  refine ⟨(q.emit d action).1, build_concat.2 ⟨p, hp, extend_eq_ok.2 ⟨(q.emit d action).2, ?_⟩⟩,
    size_emit q d action, ⟨_, hnew, hsame.trans hmethod⟩, fun a b => ?_⟩
  · rw [executeAll_concat, hc]
    exact hexecute
  · rw [mem_succsOf_emit hbuilt.wellFormed hd, hlastOf, hthrough, hfalls, List.nil_append]
    refine or_congr_right (and_congr_right fun _ => ⟨?_, fun h => ⟨h.isLast, h.allowed, h.goesOn⟩⟩)
    rintro ⟨hlast, hallowed, hgoesOn⟩
    exact ⟨hlast, hgoesOn, hallowed⟩

/-- The instructions that the parts have for the method, in order. -/
def scriptOf (parts : List (Signature × List Instruction)) (signature : Signature) :
    List Instruction :=
  (parts.filter fun part => decide (part.1 = signature)).flatMap Prod.snd

/-- Fall-through was switched off when the method was last left, and since it has been taken up
again no statement has been written and fall-through has not been switched off again. -/
structure Resumes (before : List (Signature × List Instruction)) (signature : Signature)
    (is : List Instruction) : Prop where
  leftHeldBack : HeldBack (scriptOf before signature)
  silent : ∀ i ∈ is, i.writes = false
  notAgain : ¬ HeldBack is

/-- Whether earlier parts count makes a difference only where the method is resumed behind a
statement that does not return. -/
theorem fallsThrough_script_iff {before : List (Signature × List Instruction)} {last : StmtId} :
    (q.FallsThrough signature is last ↔
        q.FallsThrough signature (scriptOf before signature ++ is) last) ↔
      ¬ (q.FallsThrough signature [] last ∧ Resumes before signature is) := by
  have hfalls : ∀ js, q.FallsThrough signature js last ↔ q.lastOf? signature = some last ∧
      (q.statement? last).any Statement.isReturn = false ∧ ¬ HeldBack js := fun js =>
    ⟨fun h => ⟨h.isLast, h.goesOn, h.allowed⟩, fun ⟨hlast, hgoes, hallowed⟩ =>
      ⟨hlast, hgoes, hallowed⟩⟩
  have hresumes : Resumes before signature is ↔ HeldBack (scriptOf before signature) ∧
      (∀ i ∈ is, i.writes = false) ∧ ¬ HeldBack is :=
    ⟨fun h => ⟨h.leftHeldBack, h.silent, h.notAgain⟩, fun ⟨hleft, hsilent, hagain⟩ =>
      ⟨hleft, hsilent, hagain⟩⟩
  have hnil : ¬ HeldBack [] := by simp [HeldBack]
  rw [hfalls, hfalls, hfalls, hresumes, heldBack_append]
  tauto

/-- Instructions whose edges join statements that exist write a program whose look-ups agree. Each
statement is written at the end of its method, and control falls through to it from the last one
unless that returns or its own part has switched fall-through off since. What an earlier part has
switched off is not minded: going by all that has been written for the method would give the same
edge except where the method is resumed behind a statement that does not return. -/
theorem build_lays_out {parts : List (Signature × List Instruction)}
    (h : EdgesExist 0 (parts.flatMap Prod.snd)) : ∃ p, build parts = .ok p ∧ p.LaidOut ∧
      ∀ before signature is i rest after, parts = before ++ (signature, is ++ i :: rest) :: after →
        i.writes = true → ∃ q r, build (before ++ [(signature, is)]) = .ok q ∧
          build (before ++ [(signature, is ++ [i])]) = .ok r ∧ r.size = q.size + 1 ∧
          (∃ s, r.statement? q.nextId = some s ∧ s.method = signature) ∧
          (∀ a b, b ∈ r.succsOf a ↔
            b ∈ q.succsOf a ∨ (b = q.nextId ∧ q.FallsThrough signature is a)) ∧
          ∀ last, (q.nextId ∈ r.succsOf last ↔
              q.FallsThrough signature (scriptOf before signature ++ is) last) ↔
            ¬ (q.FallsThrough signature [] last ∧ Resumes before signature is) := by
  obtain ⟨p, hp⟩ := build_ok h
  have hbuilt := built_of_build hp
  refine ⟨p, hp, hbuilt.listed.laidOut hbuilt.wellFormed, ?_⟩
  rintro before signature is i rest after rfl hi
  have hbefore : EdgesExist 0 ((before ++ [(signature, is)]).flatMap Prod.snd) := by
    simp only [List.flatMap_append, List.flatMap_cons, edgesExist_append] at h ⊢
    exact ⟨h.1, h.2.1.1, trivial⟩
  obtain ⟨q, hq⟩ := build_ok hbefore
  obtain ⟨r, hr, hsize, hnew, hedges⟩ := build_writes hq hi
  refine ⟨q, r, hq, hr, hsize, hnew, hedges, fun last => ?_⟩
  have hfresh : q.nextId ∉ q.succsOf last := fun hmem =>
    Nat.lt_irrefl _ ((wellFormed_of_build hq).inside _ _ hmem).2
  rw [hedges, or_iff_right hfresh, and_iff_right rfl]
  exact fallsThrough_script_iff

/-- The main method is left with fall-through switched off, and resumed behind another method. -/
def resumedParts : List (Signature × List Instruction) :=
  let main : Signature := ⟨"<M: void main()>"⟩
  let same : Signature := ⟨"<M: int same(int)>"⟩
  [(main, [.assign (.localVar "x" main) (.int 1), .noFallthrough]),
    (same, [.parameter "p", .ret (some (.localVar "p" same))]),
    (main, [.invoke none ⟨same, none, [.localVar "x" main]⟩, .ret none, .edge ⟨3⟩ ⟨0⟩])]

/-- Control falls through from the assignment to the call, which switching it off was to avoid. -/
theorem build_lays_out_resumed :
    let main : Signature := ⟨"<M: void main()>"⟩
    let before := resumedParts.take 2
    EdgesExist 0 (resumedParts.flatMap Prod.snd) ∧ (∃ p, build resumedParts = .ok p ∧ p.LaidOut ∧
        p.callersOf ⟨"<M: int same(int)>"⟩ = [⟨3⟩] ∧ p.predsOf ⟨0⟩ = [⟨3⟩]) ∧
      Resumes before main [] ∧ ∃ q r i, build (before ++ [(main, [])]) = .ok q ∧
        build (before ++ [(main, [i])]) = .ok r ∧ q.nextId = ⟨3⟩ ∧ ⟨3⟩ ∈ r.succsOf ⟨0⟩ ∧
          ¬ q.FallsThrough main (scriptOf before main) ⟨0⟩ := by
  intro main before
  have hedges : EdgesExist 0 (resumedParts.flatMap Prod.snd) := by decide
  have hresumes : Resumes before main [] := ⟨by decide, by decide, by decide⟩
  obtain ⟨p, hp, hlaid, hsteps⟩ := build_lays_out hedges
  obtain ⟨q, r, hq, hr, -, -, hsuccs, hscript⟩ := hsteps before main [] _ _ [] rfl rfl
  have hbuilt : (build resumedParts).toOption.map (fun p =>
      (p.callersOf ⟨"<M: int same(int)>"⟩, p.predsOf ⟨0⟩)) = some ([⟨3⟩], [⟨3⟩]) := by
    decide +kernel
  have hresumed : (build (before ++ [(main, [])])).toOption.map (fun q =>
      (q.nextId, q.lastOf? main, (q.statement? ⟨0⟩).any Statement.isReturn)) =
        some (⟨3⟩, some ⟨0⟩, false) := by
    decide +kernel
  rw [hp] at hbuilt
  rw [hq] at hresumed
  obtain ⟨hcallers, hpreds⟩ := Prod.mk.inj (Option.some.inj hbuilt)
  obtain ⟨hnext, hrest⟩ := Prod.mk.inj (Option.some.inj hresumed)
  obtain ⟨hlast, hgoes⟩ := Prod.mk.inj hrest
  have hfalls : q.FallsThrough main [] ⟨0⟩ := ⟨hlast, hgoes, hresumes.notAgain⟩
  have hlinked : q.nextId ∈ r.succsOf ⟨0⟩ := (hsuccs _ _).2 (.inr ⟨rfl, hfalls⟩)
  refine ⟨hedges, ⟨p, hp, hlaid, hcallers, hpreds⟩, hresumes, q, r, _, hq, hr, hnext,
    hnext ▸ hlinked, fun hfrom => ?_⟩
  refine (hscript ⟨0⟩).1 ⟨fun _ => ?_, fun _ => hlinked⟩ ⟨hfalls, hresumes⟩
  rwa [List.append_nil]

end Program

end GuidedDataflow
