import GuidedDataflow.Flow.Fact
import GuidedDataflow.Program.Basic

/-!
A bound on the number of facts that a solve can reach. A fact's edge is a control-flow edge
or the query's own, its value occurs in the program or is the query's own, and its call
string is built from the program's calls and the sites in the seeds, no longer than the depth
bound or the longest seed.
-/

namespace GuidedDataflow

/-- The values that a statement mentions. -/
def Statement.values (s : Statement) : List Value :=
  match s.action with
  | .identity target _ => [target]
  | .assign target source => [target, source]
  | .invoke result call => result.toList ++ call.receiver.toList ++ call.args
  | .ret value => value.toList
  | .nop => []

namespace Program

def values (p : Program) : List Value := p.statements.toList.flatMap Statement.values

def calls (p : Program) : List StmtId :=
  (p.statements.toList.filter Statement.isCall).map Statement.id

end Program

/-- The number of strings over `sites` letters with at most `depth` letters. -/
def stringCount (sites : Nat) : Nat → Nat
  | 0 => 1
  | depth + 1 => 1 + sites * stringCount sites depth

def longest (seeds : OrderedSet CallString) : Nat :=
  seeds.toList.foldl (fun depth c => max depth c.depth) 0

/-- The number of call sites that call strings can be built from, with repeats counted. -/
def siteCount (p : Program) (seeds : OrderedSet CallString) : Nat :=
  p.calls.length + (seeds.toList.flatMap CallString.sites).length

def factBound (p : Program) (depth : Nat) (seeds : OrderedSet CallString) : Nat :=
  (p.edges.length + 1) * (p.values.length + 1) *
    stringCount (siteCount p seeds) (max depth (longest seeds))

/-- The number of binary digits. -/
def bitLength (n : Nat) : Nat := n.log2 + 1

/-- The exponent of a power of two above the bound. Unlike the bound itself it is small even
where call strings may be very long. -/
def factBits (p : Program) (depth : Nat) (seeds : OrderedSet CallString) : Nat :=
  bitLength (p.edges.length + 1) + bitLength (p.values.length + 1) +
    bitLength (siteCount p seeds + 1) * max depth (longest seeds)

end GuidedDataflow
