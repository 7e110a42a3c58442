import GuidedDataflow.Program.Instruction

/-!
The representation invariant of programs. Numbers name the statements they are stored at,
the two directions of the control-flow graph agree and stay inside the program, and the lists
of a method and of the callers hold exactly the statements they speak about. Every program
that instructions write down has it.
-/

namespace GuidedDataflow

open Std

/-- The lists of a method hold exactly the statements of its signature. -/
structure Method.Indexes (method : Method) (p : Program) (signature : Signature) : Prop where
  body : ∀ id, id ∈ method.body ↔ ∃ s, p.statement? id = some s ∧ s.method = signature
  identities : ∀ formal id, (formal, id) ∈ method.identities ↔
    ∃ s, p.statement? id = some s ∧ s.method = signature ∧
      ∃ target, s.action = .identity target formal
  returns : ∀ id, id ∈ method.returns ↔
    ∃ s, p.statement? id = some s ∧ s.method = signature ∧ ∃ value, s.action = .ret value

structure Program.WellFormed (p : Program) : Prop where
  id_eq : ∀ id s, p.statement? id = some s → s.id = id
  size_succs : p.succs.size = p.size
  size_preds : p.preds.size = p.size
  mem_succsOf : ∀ a b, b ∈ p.succsOf a ↔ a ∈ p.predsOf b
  inside : ∀ a b, b ∈ p.succsOf a → a.index < p.size ∧ b.index < p.size
  declared : ∀ id s, p.statement? id = some s → ∃ method, p.method? s.method = some method
  indexes : ∀ signature method, p.method? signature = some method → method.Indexes p signature
  callers : ∀ callee id, id ∈ p.callersOf callee ↔
    ∃ s, p.statement? id = some s ∧
      ∃ result call, s.action = .invoke result call ∧ call.target = callee

/-- The cursor stands in a known method, behind its last statement. -/
structure Cursor.Fits (c : Cursor) (p : Program) : Prop where
  declared : ∃ method, p.method? c.method = some method
  last : ∀ method, p.method? c.method = some method → c.last = method.body.getLast?

namespace Program

variable {p : Program} {signature : Signature} {action : Action}

theorem statement?_eq_none_iff (p : Program) (id : StmtId) :
    p.statement? id = none ↔ p.size ≤ id.index := by
  simp [statement?, size]

theorem lt_of_statement? {id : StmtId} {s : Statement} (h : p.statement? id = some s) :
    id.index < p.size := by
  have hne : p.statement? id ≠ none := by simp [h]
  rw [Ne, statement?_eq_none_iff] at hne
  omega

theorem statement?_append (p : Program) (signature : Signature) (action : Action) (id : StmtId) :
    (p.append signature action).statement? id =
      if id = p.nextId then some ⟨p.nextId, signature, action⟩ else p.statement? id := by
  obtain ⟨i⟩ := id
  simp only [append, statement?, nextId, size, Array.getElem?_push, StmtId.mk.injEq]

theorem statement?_nextId (p : Program) : p.statement? p.nextId = none := by
  simp [statement?_eq_none_iff, nextId]

@[simp] theorem succsOf_append (p : Program) (signature : Signature) (action : Action)
    (id : StmtId) : (p.append signature action).succsOf id = p.succsOf id := by
  simp only [append, succsOf, Array.getElem?_push]
  split
  · next h => simp [h]
  · rfl

@[simp] theorem predsOf_append (p : Program) (signature : Signature) (action : Action)
    (id : StmtId) : (p.append signature action).predsOf id = p.predsOf id := by
  simp only [append, predsOf, Array.getElem?_push]
  split
  · next h => simp [h]
  · rfl

theorem method?_append (p : Program) (signature other : Signature) (action : Action) :
    (p.append signature action).method? other =
      if signature = other then (p.method? signature).map (·.append p.nextId action)
      else p.method? other := by
  simp only [append, method?, TreeMap.getElem?_modify, Std.compare_eq_iff_eq]

theorem callersOf_append (p : Program) (signature callee : Signature) (action : Action) :
    (p.append signature action).callersOf callee =
      match action with
      | .invoke _ call =>
        if call.target = callee then p.callersOf callee ++ [p.nextId] else p.callersOf callee
      | _ => p.callersOf callee := by
  cases action with
  | invoke result call =>
    simp only [append, callersOf, TreeMap.getElem?_insert, Std.compare_eq_iff_eq]
    split
    · next h => simp [h]
    · rfl
  | _ => rfl

@[simp] theorem statement?_link (p : Program) (source target id : StmtId) :
    (p.link source target).statement? id = p.statement? id := by
  simp only [link, statement?]
  split <;> rfl

@[simp] theorem method?_link (p : Program) (source target : StmtId) (signature : Signature) :
    (p.link source target).method? signature = p.method? signature := by
  simp only [link, method?]
  split <;> rfl

@[simp] theorem callersOf_link (p : Program) (source target : StmtId) (callee : Signature) :
    (p.link source target).callersOf callee = p.callersOf callee := by
  simp only [link, callersOf]
  split <;> rfl

theorem succsOf_link {source target a : StmtId} (h : source.index < p.succs.size) :
    (p.link source target).succsOf a =
      if a = source ∧ target ∉ p.succsOf source then p.succsOf a ++ [target]
      else p.succsOf a := by
  obtain ⟨i⟩ := source
  obtain ⟨j⟩ := a
  unfold link
  by_cases hmem : target ∈ p.succsOf ⟨i⟩
  · rw [if_pos hmem, if_neg fun hnew => hnew.2 hmem]
  · rw [if_neg hmem]
    by_cases hij : i = j
    · subst hij
      rw [if_pos ⟨rfl, hmem⟩]
      simp only [succsOf, Array.getElem?_modify, if_true]
      simp [show i < p.succs.size from h]
    · rw [if_neg fun hnew => hij (StmtId.mk.inj hnew.1).symm]
      simp [succsOf, Array.getElem?_modify, hij]

theorem predsOf_link {source target b : StmtId} (h : target.index < p.preds.size) :
    (p.link source target).predsOf b =
      if b = target ∧ target ∉ p.succsOf source then p.predsOf b ++ [source]
      else p.predsOf b := by
  obtain ⟨i⟩ := target
  obtain ⟨j⟩ := b
  unfold link
  by_cases hmem : (⟨i⟩ : StmtId) ∈ p.succsOf source
  · rw [if_pos hmem, if_neg fun hnew => hnew.2 hmem]
  · rw [if_neg hmem]
    by_cases hij : i = j
    · subst hij
      rw [if_pos ⟨rfl, hmem⟩]
      simp only [predsOf, Array.getElem?_modify, if_true]
      simp [show i < p.preds.size from h]
    · rw [if_neg fun hnew => hij (StmtId.mk.inj hnew.1).symm]
      simp [predsOf, Array.getElem?_modify, hij]

theorem mem_succsOf_link {source target a b : StmtId} (h : source.index < p.succs.size) :
    b ∈ (p.link source target).succsOf a ↔ b ∈ p.succsOf a ∨ (a = source ∧ b = target) := by
  rw [succsOf_link h]
  split
  · next hnew => simp [hnew.1]
  · next hold =>
    refine ⟨.inl, ?_⟩
    rintro (hb | ⟨rfl, rfl⟩)
    · exact hb
    · exact Classical.not_not.1 fun hmem => hold ⟨rfl, hmem⟩

theorem mem_predsOf_link (hp : p.WellFormed) {source target a b : StmtId}
    (h : target.index < p.preds.size) :
    a ∈ (p.link source target).predsOf b ↔ a ∈ p.predsOf b ∨ (a = source ∧ b = target) := by
  rw [predsOf_link h]
  split
  · next hnew => simp [hnew.1]
  · next hold =>
    refine ⟨.inl, ?_⟩
    rintro (ha | ⟨rfl, rfl⟩)
    · exact ha
    · exact (hp.mem_succsOf _ _).1 (Classical.not_not.1 fun hmem => hold ⟨rfl, hmem⟩)

theorem method?_declare (p : Program) (signature other : Signature) :
    (p.declare signature).method? other =
      if signature = other ∧ p.method? signature = none then some .empty
      else p.method? other := by
  simp only [declare, method?, TreeMap.getElem?_insertIfNew, Std.compare_eq_iff_eq,
    TreeMap.mem_iff_isSome_getElem?, Option.not_isSome_iff_eq_none]
  congr

namespace WellFormed

theorem empty : Program.empty.WellFormed where
  id_eq id s h := by simp [Program.empty, statement?] at h
  size_succs := rfl
  size_preds := rfl
  mem_succsOf a b := by simp [Program.empty, succsOf, predsOf]
  inside a b h := by simp [Program.empty, succsOf] at h
  declared id s h := by simp [Program.empty, statement?] at h
  indexes signature method h := by simp [Program.empty, method?] at h
  callers callee id := by simp [Program.empty, callersOf, statement?]

theorem declare (hp : p.WellFormed) (signature : Signature) :
    (p.declare signature).WellFormed where
  id_eq := hp.id_eq
  size_succs := hp.size_succs
  size_preds := hp.size_preds
  mem_succsOf := hp.mem_succsOf
  inside := hp.inside
  declared id s h := by
    obtain ⟨method, hm⟩ := hp.declared id s h
    rw [method?_declare]
    split
    · exact ⟨_, rfl⟩
    · exact ⟨method, hm⟩
  indexes other method h := by
    rw [method?_declare] at h
    split at h
    · next hnew =>
      obtain ⟨rfl, hnone⟩ := hnew
      obtain rfl : Method.empty = method := by simpa using h
      have hno : ∀ id s, p.statement? id = some s → s.method ≠ signature := by
        rintro id s hs rfl
        obtain ⟨method, hm⟩ := hp.declared id s hs
        simp [hnone] at hm
      refine ⟨fun id => ?_, fun formal id => ?_, fun id => ?_⟩ <;>
        simp only [Method.empty, List.not_mem_nil, false_iff]
      · rintro ⟨s, hs, hm⟩
        exact hno id s hs hm
      · rintro ⟨s, hs, hm, -⟩
        exact hno id s hs hm
      · rintro ⟨s, hs, hm, -⟩
        exact hno id s hs hm
    · have hi := hp.indexes other method h
      exact ⟨hi.body, hi.identities, hi.returns⟩
  callers := hp.callers

/-- What holds of some statement after an append holds of an older one or of the new one. -/
theorem exists_statement_append {P : Statement → Prop} {id : StmtId} :
    (∃ s, (p.append signature action).statement? id = some s ∧ P s) ↔
      (∃ s, p.statement? id = some s ∧ P s) ∨
        (id = p.nextId ∧ P ⟨p.nextId, signature, action⟩) := by
  rw [statement?_append]
  by_cases h : id = p.nextId
  · subst h
    simp [statement?_nextId]
  · simp [h]

theorem indexes_append {method : Method} (hp : p.WellFormed)
    (hm : p.method? signature = some method) :
    (method.append p.nextId action).Indexes (p.append signature action) signature := by
  have hi := hp.indexes signature method hm
  refine ⟨fun id => ?_, fun formal id => ?_, fun id => ?_⟩
  · rw [exists_statement_append, ← hi.body]
    simp [Method.append]
  · rw [exists_statement_append, ← hi.identities]
    cases action <;> simp [Method.append, and_comm, eq_comm]
  · rw [exists_statement_append, ← hi.returns]
    cases action <;> simp [Method.append]

theorem indexes_append_other {other : Signature} {method : Method} (hp : p.WellFormed)
    (hne : signature ≠ other) (hm : p.method? other = some method) :
    method.Indexes (p.append signature action) other := by
  have hi := hp.indexes other method hm
  refine ⟨fun id => ?_, fun formal id => ?_, fun id => ?_⟩
  · rw [exists_statement_append, ← hi.body]
    simp [hne]
  · rw [exists_statement_append, ← hi.identities]
    simp [hne]
  · rw [exists_statement_append, ← hi.returns]
    simp [hne]

theorem append (hp : p.WellFormed) (action : Action)
    (hdeclared : ∃ method, p.method? signature = some method) :
    (p.append signature action).WellFormed where
  id_eq id s h := by
    rw [statement?_append] at h
    split at h
    · next hid =>
      obtain rfl : _ = s := by simpa using h
      exact hid.symm
    · exact hp.id_eq id s h
  size_succs := by
    rw [size_append, ← hp.size_succs]
    simp [Program.append]
  size_preds := by
    rw [size_append, ← hp.size_preds]
    simp [Program.append]
  mem_succsOf a b := by simpa using hp.mem_succsOf a b
  inside a b h := by
    have := hp.inside a b (by simpa using h)
    rw [size_append]
    omega
  declared id s h := by
    have hold : ∃ method, p.method? s.method = some method := by
      rw [statement?_append] at h
      split at h
      · obtain rfl : _ = s := by simpa using h
        exact hdeclared
      · exact hp.declared id s h
    obtain ⟨method, hm⟩ := hold
    rw [method?_append]
    split
    · next heq => exact ⟨_, by rw [heq, hm, Option.map_some]⟩
    · exact ⟨method, hm⟩
  indexes other method h := by
    rw [method?_append] at h
    split at h
    · next heq =>
      subst heq
      obtain ⟨old, hold, rfl⟩ := Option.map_eq_some_iff.1 h
      exact hp.indexes_append hold
    · next hne => exact hp.indexes_append_other hne h
  callers callee id := by
    rw [callersOf_append, exists_statement_append, ← hp.callers]
    cases action with
    | invoke result call =>
      simp only [Action.invoke.injEq, exists_and_left, and_assoc, exists_eq_left']
      by_cases h : call.target = callee <;> simp [h]
    | _ => simp

theorem link (hp : p.WellFormed) {source target : StmtId} (hs : source.index < p.size)
    (ht : target.index < p.size) : (p.link source target).WellFormed where
  id_eq id s h := hp.id_eq id s (by simpa using h)
  size_succs := by
    rw [size_link, ← hp.size_succs]
    unfold Program.link
    split <;> simp
  size_preds := by
    rw [size_link, ← hp.size_preds]
    unfold Program.link
    split <;> simp
  mem_succsOf a b := by
    rw [mem_succsOf_link (by rwa [hp.size_succs]), mem_predsOf_link hp (by rwa [hp.size_preds]),
      hp.mem_succsOf]
  inside a b h := by
    rw [mem_succsOf_link (by rwa [hp.size_succs])] at h
    rw [size_link]
    rcases h with h | ⟨rfl, rfl⟩
    · exact hp.inside a b h
    · exact ⟨hs, ht⟩
  declared id s h := by simpa using hp.declared id s (by simpa using h)
  indexes signature method h := by
    have hi := hp.indexes signature method (by simpa using h)
    refine ⟨fun id => ?_, fun formal id => ?_, fun id => ?_⟩
    · simpa using hi.body id
    · simpa using hi.identities formal id
    · simpa using hi.returns id
  callers callee id := by simpa using hp.callers callee id

end WellFormed

/-- The program comes from the empty one by declaring methods, adding statements to known ones
and joining statements that exist. -/
inductive Built : Program → Prop
  | empty : Built empty
  | declare {p : Program} (before : Built p) (signature : Signature) : Built (p.declare signature)
  | append {p : Program} {signature : Signature} (before : Built p)
      (known : ∃ method, p.method? signature = some method) (action : Action) :
      Built (p.append signature action)
  | link {p : Program} {source target : StmtId} (before : Built p)
      (source_lt : source.index < p.size) (target_lt : target.index < p.size) :
      Built (p.link source target)

theorem Built.wellFormed (h : p.Built) : p.WellFormed := by
  induction h with
  | empty => exact .empty
  | declare _ signature ih => exact ih.declare signature
  | append _ known action ih => exact ih.append action known
  | link _ source_lt target_lt ih => exact ih.link source_lt target_lt

/-- The statement before the cursor exists. -/
theorem last_lt {c : Cursor} (hp : p.WellFormed) (hc : c.Fits p) {id : StmtId}
    (h : c.last = some id) : id.index < p.size := by
  obtain ⟨method, hm⟩ := hc.declared
  have hmem : id ∈ method.body := List.mem_of_getLast? ((hc.last method hm).symm.trans h)
  obtain ⟨s, hs, -⟩ := ((hp.indexes c.method method hm).body id).1 hmem
  exact lt_of_statement? hs

/-- A statement is added at the cursor and perhaps joined to the one before it. -/
theorem emit_cases (p : Program) (c : Cursor) (action : Action) :
    (p.emit c action).1 = p.append c.method action ∨ ∃ prev, c.last = some prev ∧
      (p.emit c action).1 = (p.append c.method action).link prev p.nextId := by
  unfold emit
  dsimp only
  split
  · exact .inl rfl
  · next prev hprev =>
    split
    · exact .inr ⟨prev, hprev, rfl⟩
    · exact .inl rfl

theorem method?_emit (p : Program) (c : Cursor) (action : Action) (signature : Signature) :
    (p.emit c action).1.method? signature = (p.append c.method action).method? signature := by
  rcases p.emit_cases c action with h | ⟨prev, -, h⟩
  · rw [h]
  · rw [h, method?_link]

theorem emit_fits {c : Cursor} (hc : c.Fits p) (action : Action) :
    (p.emit c action).2.Fits (p.emit c action).1 := by
  obtain ⟨method, hm⟩ := hc.declared
  have hnew : (p.emit c action).1.method? c.method = some (method.append p.nextId action) := by
    rw [method?_emit, method?_append, if_pos rfl, hm, Option.map_some]
  refine ⟨⟨_, hnew⟩, fun other hother => ?_⟩
  obtain rfl := Option.some.inj (hnew.symm.trans hother)
  exact List.getLast?_concat.symm

theorem emit_built {c : Cursor} (hp : p.Built) (hc : c.Fits p) (action : Action) :
    (p.emit c action).1.Built := by
  have happ := hp.append hc.declared action
  rcases p.emit_cases c action with h | ⟨prev, hprev, h⟩
  · rwa [h]
  · have hlast := last_lt hp.wellFormed hc hprev
    rw [h]
    refine happ.link ?_ ?_ <;> rw [size_append]
    · omega
    · exact Nat.lt_succ_self _

theorem execute_built {c c' : Cursor} {p' : Program} {i : Instruction} (hp : p.Built)
    (hc : c.Fits p) (h : p.execute c i = .ok (p', c')) : p'.Built ∧ c'.Fits p' := by
  have emitted : ∀ (d : Cursor) (action : Action), d.method = c.method → d.last = c.last →
      Except.ok (ε := BuildError) (p.emit d action) = .ok (p', c') →
      p'.Built ∧ c'.Fits p' := by
    intro d action hm hl he
    have hd : d.Fits p := ⟨hm ▸ hc.declared, by rw [hm, hl]; exact hc.last⟩
    have hemit : (p.emit d action).1.Built ∧ (p.emit d action).2.Fits (p.emit d action).1 :=
      ⟨emit_built hp hd action, emit_fits hd action⟩
    rwa [Except.ok.inj he] at hemit
  cases i with
  | edge source target =>
    simp only [execute] at h
    split at h
    · next hin =>
      obtain ⟨rfl, rfl⟩ : p.link source target = p' ∧ c = c' := by simpa using h
      refine ⟨hp.link hin.1 hin.2, by simpa using hc.declared, ?_⟩
      simpa using hc.last
    · cases h
  | noFallthrough =>
    obtain ⟨rfl, rfl⟩ : p = p' ∧ { c with fallsThrough := false } = c' := by
      simpa [execute] using h
    exact ⟨hp, hc.declared, hc.last⟩
  | parameter name => exact emitted { c with nextParameter := c.nextParameter + 1 } _ rfl rfl h
  | _ => exact emitted c _ rfl rfl h

theorem executeAll_built {c c' : Cursor} {p' : Program} {is : List Instruction}
    (hp : p.Built) (hc : c.Fits p) (h : p.executeAll c is = .ok (p', c')) :
    p'.Built ∧ c'.Fits p' := by
  induction is generalizing p c with
  | nil =>
    obtain ⟨rfl, rfl⟩ : p = p' ∧ c = c' := by simpa [executeAll] using h
    exact ⟨hp, hc⟩
  | cons i is ih =>
    simp only [executeAll] at h
    split at h
    · next q d hi =>
      obtain ⟨hq, hd⟩ := execute_built hp hc hi
      exact ih hq hd h
    · cases h

theorem exists_method?_declare (p : Program) (signature : Signature) :
    ∃ method, (p.declare signature).method? signature = some method := by
  rw [method?_declare]
  cases hm : p.method? signature with
  | none => exact ⟨.empty, by simp⟩
  | some method => exact ⟨method, by simp⟩

theorem atEnd_fits (p : Program) (signature : Signature) :
    (Cursor.atEnd (p.declare signature) signature).Fits (p.declare signature) := by
  refine ⟨exists_method?_declare p signature, fun method hm => ?_⟩
  simp only [Cursor.atEnd] at hm ⊢
  rw [hm, Option.bind_some]

theorem extend_built {p' : Program} {body : List Instruction} (hp : p.Built)
    (h : p.extend signature body = .ok p') : p'.Built := by
  simp only [extend] at h
  cases hx : (p.declare signature).executeAll (.atEnd (p.declare signature) signature) body with
  | error e =>
    rw [hx] at h
    cases h
  | ok r =>
    rw [hx] at h
    cases h
    exact (executeAll_built (hp.declare signature) (atEnd_fits p signature) hx).1

theorem built_of_build {parts : List (Signature × List Instruction)}
    (h : build parts = .ok p) : p.Built := by
  unfold build at h
  generalize hq : Program.empty = q at h
  have hbuilt : q.Built := hq ▸ .empty
  clear hq
  induction parts generalizing q with
  | nil =>
    cases h
    exact hbuilt
  | cons part parts ih =>
    obtain ⟨signature, body⟩ := part
    rw [List.foldlM_cons] at h
    cases hx : q.extend signature body with
    | error e => simp [hx, bind, Except.bind] at h
    | ok r =>
      simp only [hx, bind, Except.bind] at h
      exact ih r h (extend_built hbuilt hx)

/-- Whatever the method parts write down is well formed. -/
theorem wellFormed_of_build {parts : List (Signature × List Instruction)}
    (h : build parts = .ok p) : p.WellFormed := (built_of_build h).wellFormed

end Program

end GuidedDataflow
