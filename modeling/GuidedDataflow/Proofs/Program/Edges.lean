import GuidedDataflow.Proofs.Program.WellFormed

/-!
The control-flow edges of a well-formed program and the indexes of its methods. The edges out of
a statement and those into it are the program's edges with that end, and both ends of an edge
are statements; what a method's indexes list are identity statements and returns of it.
-/

namespace GuidedDataflow.Program

variable {p : Program}

theorem mem_succEdges {e : Edge} {id : StmtId} :
    e ∈ p.succEdges id ↔ e.start = id ∧ e.target ∈ p.succsOf id := by
  obtain ⟨a, b⟩ := e
  simp only [succEdges, List.mem_map, Edge.mk.injEq]
  grind

theorem mem_predEdges {e : Edge} {id : StmtId} :
    e ∈ p.predEdges id ↔ e.target = id ∧ e.start ∈ p.predsOf id := by
  obtain ⟨a, b⟩ := e
  simp only [predEdges, List.mem_map, Edge.mk.injEq]
  grind

theorem exists_statement_of_lt {id : StmtId} (h : id.index < p.size) :
    ∃ s, p.statement? id = some s := by
  cases hs : p.statement? id with
  | none =>
    rw [statement?_eq_none_iff] at hs
    omega
  | some s => exact ⟨s, rfl⟩

theorem mem_of_statement? {id : StmtId} {s : Statement} (h : p.statement? id = some s) :
    s ∈ p.statements.toList :=
  Array.mem_toList_iff.2 (Array.mem_of_getElem? h)

namespace WellFormed

variable (hp : p.WellFormed)
include hp

theorem mem_edges {e : Edge} : e ∈ p.edges ↔ e.target ∈ p.succsOf e.start := by
  simp only [edges, List.mem_flatMap, mem_succEdges]
  constructor
  · rintro ⟨s, -, hid, h⟩
    rwa [hid]
  · intro h
    obtain ⟨s, hs⟩ := exists_statement_of_lt (hp.inside _ _ h).1
    have hid := hp.id_eq _ _ hs
    exact ⟨s, mem_of_statement? hs, hid.symm, hid ▸ h⟩

theorem mem_succEdges_iff {e : Edge} {id : StmtId} :
    e ∈ p.succEdges id ↔ e ∈ p.edges ∧ e.start = id := by
  rw [mem_succEdges, hp.mem_edges]
  constructor
  · rintro ⟨rfl, h⟩
    exact ⟨h, rfl⟩
  · rintro ⟨h, rfl⟩
    exact ⟨rfl, h⟩

theorem mem_predEdges_iff {e : Edge} {id : StmtId} :
    e ∈ p.predEdges id ↔ e ∈ p.edges ∧ e.target = id := by
  rw [mem_predEdges, hp.mem_edges, hp.mem_succsOf]
  constructor
  · rintro ⟨rfl, h⟩
    exact ⟨h, rfl⟩
  · rintro ⟨h, rfl⟩
    exact ⟨rfl, h⟩

/-- Both ends of an edge are statements. -/
theorem ends_of_mem_edges {e : Edge} (h : e ∈ p.edges) :
    (∃ s, p.statement? e.start = some s) ∧ ∃ s, p.statement? e.target = some s := by
  obtain ⟨h1, h2⟩ := hp.inside _ _ (hp.mem_edges.1 h)
  exact ⟨exists_statement_of_lt h1, exists_statement_of_lt h2⟩

section Indexes

variable {callee : Method} {signature : Signature} (hm : p.method? signature = some callee)
  {id : StmtId} {s : Statement} (hs : p.statement? id = some s)
include hm hs

theorem method_of_mem_identities {formal : Formal} (h : (formal, id) ∈ callee.identities) :
    s.method = signature ∧ ∃ target, s.action = .identity target formal := by
  obtain ⟨s', hs', h⟩ := ((hp.indexes _ _ hm).identities formal id).1 h
  obtain rfl : s = s' := Option.some.inj (hs.symm.trans hs')
  exact h

theorem method_of_mem_returns (h : id ∈ callee.returns) :
    s.method = signature ∧ ∃ value, s.action = .ret value := by
  obtain ⟨s', hs', h⟩ := ((hp.indexes _ _ hm).returns id).1 h
  obtain rfl : s = s' := Option.some.inj (hs.symm.trans hs')
  exact h

end Indexes

end WellFormed

end GuidedDataflow.Program
