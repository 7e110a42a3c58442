import Mathlib.Algebra.GroupWithZero.Nat
import Mathlib.Data.List.Nodup
import GuidedDataflow.Solver.FactStore

/-!
The views of a fact store. Whatever facts are entered, in any order and however often, the table
has their cells, each cell has the call strings that it was entered with and at least one, and the
facts are as many as the call strings of all cells together.
-/

namespace GuidedDataflow.FactStore

variable {s : FactStore} {f g : Fact} {fs : List Fact} {c : Cell}

/-- Enters the facts one after another. -/
def insertAll (s : FactStore) (fs : List Fact) : FactStore := fs.foldl insert s

theorem mem_insertAll : g ∈ s.insertAll fs ↔ g ∈ s ∨ g ∈ fs := by
  induction fs generalizing s with
  | nil => simp [insertAll]
  | cons f fs ih =>
    have hrest : g ∈ s.insertAll (f :: fs) ↔ g ∈ s.insert f ∨ g ∈ fs := ih
    rw [hrest, mem_insert, List.mem_cons, or_assoc, or_left_comm]

theorem mem_insertAll_empty : g ∈ empty.insertAll fs ↔ g ∈ fs := by
  rw [mem_insertAll]
  exact or_iff_right (not_mem_empty g)

theorem add_isNew_iff : (s.add f).1 = true ↔ f ∉ s := by
  by_cases hf : f ∈ s
  · simp [add_of_mem hf, hf]
  · simp [add_of_not_mem hf, hf]

/-- A cell without call strings is not in the table. -/
theorem contextsAt?_eq_none_iff : s.contextsAt? c = none ↔ c ∉ s.table := by
  rw [mem_table_iff_exists_mem_contextsOf]
  constructor
  · intro hnone
    simp [contextsOf, hnone]
  · intro habsent
    cases hknown : s.contextsAt? c with
    | none => rfl
    | some known =>
      have hne : known.toList ≠ [] := List.isEmpty_eq_false_iff.1 (s.agree.nonempty c known hknown)
      obtain ⟨context, hcontext⟩ := List.exists_mem_of_ne_nil _ hne
      refine absurd ⟨context, ?_⟩ habsent
      rw [contextsOf, hknown]
      exact hcontext

theorem mem_of_contextsAt? {known : OrderedSet CallString} (h : s.contextsAt? c = some known)
    (context : CallString) : context ∈ known ↔ Fact.ofCell c context ∈ s := by
  rw [← mem_contextsOf, contextsOf, h]
  rfl

/-- The facts of the cells of the table, cell by cell. -/
def factsByCell (s : FactStore) : List Fact :=
  s.table.cells.toList.flatMap fun c => (s.contextsOf c).toList.map (Fact.ofCell c)

theorem mem_factsByCell : f ∈ s.factsByCell ↔ f ∈ s := by
  simp only [factsByCell, List.mem_flatMap, List.mem_map]
  constructor
  · rintro ⟨c, -, context, hcontext, rfl⟩
    exact mem_contextsOf.1 hcontext
  · intro hf
    exact ⟨f.cell, mem_table.2 ⟨f, hf, rfl⟩, f.context, mem_contextsOf.2 hf, rfl⟩

theorem nodup_factsByCell (s : FactStore) : s.factsByCell.Nodup := by
  refine List.nodup_flatMap.2 ⟨fun c _ => ?_, ?_⟩
  · apply (OrderedSet.nodup_toList _).map
    intro context context' hsame
    exact congrArg Fact.context hsame
  · apply s.table.cells.nodup_toList.imp
    -- facts of different cells differ in their cell
    intro c d hne f hf hf'
    obtain ⟨context, -, rfl⟩ := List.mem_map.1 hf
    obtain ⟨context', -, hsame⟩ := List.mem_map.1 hf'
    exact hne (congrArg Fact.cell hsame).symm

/-- A store has as many facts as its cells have call strings together. -/
theorem size_eq_sum (s : FactStore) :
    s.size = (s.table.cells.toList.map fun c => (s.contextsOf c).size).sum := by
  have hperm : s.seen.toList.Perm s.factsByCell :=
    (List.perm_ext_iff_of_nodup s.nodup_toList s.nodup_factsByCell).2 fun f =>
      mem_toList.trans mem_factsByCell.symm
  calc s.size = s.seen.toList.length := Std.TreeSet.length_toList.symm
    _ = s.factsByCell.length := hperm.length_eq
    _ = (s.table.cells.toList.map fun c => (s.contextsOf c).size).sum := by
        simp only [factsByCell, List.length_flatMap, List.length_map, OrderedSet.size]

/-- After any facts have been entered into an empty store, the answer to one more says whether it
is among them, the table has their cells and no other, a cell has call strings only if it is in the
table, and then those that it was entered with, and the facts are counted by the call strings. -/
theorem insertAll_views_agree (fs : List Fact) :
    let s := empty.insertAll fs
    (∀ f, (s.add f).1 = true ↔ f ∉ fs) ∧
      (∀ c, c ∈ s.table ↔ ∃ f ∈ fs, f.cell = c) ∧
      (∀ c, s.contextsAt? c = none ↔ ∀ f ∈ fs, f.cell ≠ c) ∧
      (∀ c known, s.contextsAt? c = some known → known.isEmpty = false ∧
        ∀ context, context ∈ known ↔ Fact.ofCell c context ∈ fs) ∧
      s.size = (s.table.cells.toList.map fun c => (s.contextsOf c).size).sum := by
  intro s
  have hcells : ∀ c, c ∈ s.table ↔ ∃ f ∈ fs, f.cell = c := by
    intro c
    simp only [mem_table, s, mem_insertAll_empty]
  refine ⟨fun f => ?_, hcells, fun c => ?_, fun c known hknown => ⟨?_, fun context => ?_⟩, ?_⟩
  · rw [add_isNew_iff, mem_insertAll_empty]
  · rw [contextsAt?_eq_none_iff, hcells]
    simp
  · exact s.agree.nonempty c known hknown
  · rw [mem_of_contextsAt? hknown, mem_insertAll_empty]
  · exact s.size_eq_sum

end GuidedDataflow.FactStore
