import GuidedDataflow.Query.Basic

/-!
Result tables: the cells that a solve reached, with a mark that is lost when the solve was
cut short.
-/

namespace GuidedDataflow

structure Table where
  cells : OrderedSet Cell
  complete : Bool
deriving DecidableEq

namespace Table

def empty : Table := ⟨.empty, true⟩

instance : Inhabited Table := ⟨empty⟩

/-- A complete table of the listed cells. -/
def ofCells (cells : List Cell) : Table := ⟨.ofList cells, true⟩

def insert (t : Table) (c : Cell) : Table := { t with cells := t.cells.insert c }

def markIncomplete (t : Table) : Table := { t with complete := false }

instance : Membership Cell Table := ⟨fun t c => c ∈ t.cells⟩

instance (c : Cell) (t : Table) : Decidable (c ∈ t) := inferInstanceAs (Decidable (c ∈ t.cells))

theorem mem_insert {t : Table} {c d : Cell} : d ∈ t.insert c ↔ d = c ∨ d ∈ t :=
  OrderedSet.mem_insert

/-- The values on one edge, in increasing order. -/
def valuesAt (t : Table) (e : Edge) : List Value :=
  (t.cells.toList.filter (·.edge = e)).map Cell.value

def size (t : Table) : Nat := t.cells.size

def isEmpty (t : Table) : Bool := t.cells.isEmpty

end Table

end GuidedDataflow
