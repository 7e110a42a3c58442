import GuidedDataflow.Flow.Fact
import GuidedDataflow.Query.Table

/-!
Stores of facts. A store keeps the facts themselves, the table of their cells, which forgets the
call strings and has a completeness mark, and the call strings that each cell was reached under.
A new fact is entered in each of the three, so that they never disagree.
-/

namespace GuidedDataflow

open Std

namespace FactStore

/-- The call strings that each cell was reached under. -/
abbrev Contexts := TreeMap Cell (OrderedSet CallString)

/-- The table and the call strings are those of the facts, and no cell is kept without any. -/
structure Agree (seen : TreeSet Fact) (table : Table) (contexts : Contexts) : Prop where
  cells : ∀ c, c ∈ table ↔ ∃ f ∈ seen, f.cell = c
  callers : ∀ (c : Cell) (context : CallString),
    context ∈ contexts[c]?.getD .empty ↔ Fact.ofCell c context ∈ seen
  nonempty : ∀ (c : Cell) (known : OrderedSet CallString),
    contexts[c]? = some known → known.isEmpty = false

theorem mem_seen_insert {seen : TreeSet Fact} {f g : Fact} :
    g ∈ seen.insert f ↔ g = f ∨ g ∈ seen := by
  rw [TreeSet.mem_insert, Std.compare_eq_iff_eq, eq_comm]

theorem Agree.empty : Agree ∅ .empty ∅ where
  cells c := by
    refine iff_of_false (OrderedSet.not_mem_empty c) ?_
    rintro ⟨f, hf, -⟩
    exact TreeSet.not_mem_emptyc hf
  callers c context := by
    rw [TreeMap.getElem?_emptyc]
    exact iff_of_false (OrderedSet.not_mem_empty context) TreeSet.not_mem_emptyc
  nonempty c known h := by
    rw [TreeMap.getElem?_emptyc] at h
    cases h

theorem Agree.add {seen : TreeSet Fact} {table : Table} {contexts : Contexts}
    (h : Agree seen table contexts) (f : Fact) :
    Agree (seen.insert f) (table.insert f.cell)
      (contexts.insert f.cell ((contexts[f.cell]?.getD .empty).insert f.context)) where
  cells c := by
    rw [Table.mem_insert, h.cells]
    simp only [mem_seen_insert, or_and_right, exists_or, exists_eq_left, eq_comm (a := c)]
  callers c context := by
    have hfact : Fact.ofCell c context = f ↔ f.cell = c ∧ context = f.context := by
      constructor
      · rintro rfl
        exact ⟨rfl, rfl⟩
      · rintro ⟨rfl, rfl⟩
        rfl
    simp only [mem_seen_insert, hfact, ← h.callers, TreeMap.getElem?_insert, Std.compare_eq_iff_eq]
    by_cases hcell : f.cell = c
    · subst hcell
      simp
    · simp [hcell]
  nonempty c known hknown := by
    rw [TreeMap.getElem?_insert] at hknown
    split at hknown
    · obtain rfl := Option.some.inj hknown
      have hmem : f.context ∈ (contexts[f.cell]?.getD .empty).insert f.context :=
        OrderedSet.mem_insert.2 (.inl rfl)
      exact List.isEmpty_eq_false_iff.2 (List.ne_nil_of_mem hmem)
    · exact h.nonempty c known hknown

theorem Agree.markIncomplete {seen : TreeSet Fact} {table : Table} {contexts : Contexts}
    (h : Agree seen table contexts) : Agree seen table.markIncomplete contexts :=
  ⟨h.cells, h.callers, h.nonempty⟩

end FactStore

structure FactStore where
  seen : TreeSet Fact
  table : Table
  contexts : FactStore.Contexts
  agree : FactStore.Agree seen table contexts

namespace FactStore

def empty : FactStore := ⟨∅, .empty, ∅, .empty⟩

instance : Inhabited FactStore := ⟨empty⟩

instance : Membership Fact FactStore := ⟨fun s f => f ∈ s.seen⟩

instance (f : Fact) (s : FactStore) : Decidable (f ∈ s) := inferInstanceAs (Decidable (f ∈ s.seen))

/-- The call strings of a cell, if the table has the cell at all. -/
def contextsAt? (s : FactStore) (c : Cell) : Option (OrderedSet CallString) := s.contexts[c]?

/-- The call strings under which the store holds the cell. -/
def contextsOf (s : FactStore) (c : Cell) : OrderedSet CallString := (s.contextsAt? c).getD .empty

/-- Enters the fact, unless it is there already, and says whether it is new. -/
def add (s : FactStore) (f : Fact) : Bool × FactStore :=
  if f ∈ s then (false, s)
  else
    (true,
      { seen := s.seen.insert f
        table := s.table.insert f.cell
        contexts := s.contexts.insert f.cell ((s.contextsOf f.cell).insert f.context)
        agree := s.agree.add f })

def insert (s : FactStore) (f : Fact) : FactStore := (s.add f).2

def markIncomplete (s : FactStore) : FactStore :=
  { s with table := s.table.markIncomplete, agree := s.agree.markIncomplete }

def complete (s : FactStore) : Bool := s.table.complete

/-- The number of facts. -/
def size (s : FactStore) : Nat := s.seen.size

theorem add_of_mem {s : FactStore} {f : Fact} (h : f ∈ s) : s.add f = (false, s) := if_pos h

theorem add_of_not_mem {s : FactStore} {f : Fact} (h : f ∉ s) : s.add f = (true, s.insert f) := by
  unfold insert add
  rw [if_neg h]

@[simp] theorem mem_insert {s : FactStore} {f g : Fact} : g ∈ s.insert f ↔ g = f ∨ g ∈ s := by
  by_cases hf : f ∈ s
  · rw [insert, add_of_mem hf]
    exact ⟨.inr, fun h => h.elim (fun heq => heq ▸ hf) id⟩
  · unfold insert add
    rw [if_neg hf]
    exact mem_seen_insert

@[simp] theorem complete_insert (s : FactStore) (f : Fact) : (s.insert f).complete = s.complete := by
  unfold insert add
  split <;> rfl

theorem not_mem_empty (f : Fact) : ¬ f ∈ empty := TreeSet.not_mem_emptyc

theorem mem_toList {s : FactStore} {f : Fact} : f ∈ s.seen.toList ↔ f ∈ s :=
  TreeSet.mem_toList

theorem nodup_toList (s : FactStore) : s.seen.toList.Nodup := by
  refine TreeSet.distinct_toList.imp fun {f g} hne heq => hne ?_
  rw [heq]
  exact ReflCmp.compare_self

theorem mem_table {s : FactStore} {c : Cell} : c ∈ s.table ↔ ∃ f ∈ s, f.cell = c := s.agree.cells c

theorem mem_contextsOf {s : FactStore} {c : Cell} {context : CallString} :
    context ∈ s.contextsOf c ↔ Fact.ofCell c context ∈ s := s.agree.callers c context

/-- The table has the cells that are held under some call string. -/
theorem mem_table_iff_exists_mem_contextsOf {s : FactStore} {c : Cell} :
    c ∈ s.table ↔ ∃ context, context ∈ s.contextsOf c := by
  rw [mem_table]
  constructor
  · rintro ⟨f, hf, rfl⟩
    exact ⟨f.context, mem_contextsOf.2 hf⟩
  · rintro ⟨context, hcontext⟩
    exact ⟨_, mem_contextsOf.1 hcontext, rfl⟩

end FactStore

end GuidedDataflow
