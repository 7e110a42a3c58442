import GuidedDataflow.Query.Basic

/-!
Counters of an analysis.
-/

namespace GuidedDataflow

structure Statistics where
  forwardSolved : Nat
  backwardSolved : Nat
  topLevelSolves : Nat
  scopedSolves : Nat
  /-- Solves whose table was cut short. -/
  partialSolves : Nat
  queriesEnqueued : Nat
  /-- Spawned queries whose key had been seen. -/
  duplicatesDropped : Nat
  specSpawned : Nat
  builtInSpawned : Nat
  rescannedTables : Nat
  allocationSitesSeen : Nat
  /-- Queries left unsolved by the query cap. -/
  queriesSkipped : Nat
deriving DecidableEq, Inhabited, Repr

namespace Statistics

def zero : Statistics := ⟨0, 0, 0, 0, 0, 0, 0, 0, 0, 0, 0, 0⟩

def recordSolve (s : Statistics) (d : Direction) (inScope complete : Bool) : Statistics :=
  { s with
    forwardSolved := s.forwardSolved + (if d = .forward then 1 else 0)
    backwardSolved := s.backwardSolved + (if d = .backward then 1 else 0)
    topLevelSolves := s.topLevelSolves + (if inScope then 0 else 1)
    scopedSolves := s.scopedSolves + (if inScope then 1 else 0)
    partialSolves := s.partialSolves + (if complete then 0 else 1) }

def totalSolved (s : Statistics) : Nat := s.forwardSolved + s.backwardSolved

/-- The counters by name, in the order they are reported. -/
def entries (s : Statistics) : List (String × Nat) :=
  [("forward_solved", s.forwardSolved), ("backward_solved", s.backwardSolved),
    ("top_level_solves", s.topLevelSolves), ("scoped_solves", s.scopedSolves),
    ("partial_solves", s.partialSolves), ("queries_enqueued", s.queriesEnqueued),
    ("duplicates_dropped", s.duplicatesDropped), ("spec_spawned", s.specSpawned),
    ("built_in_spawned", s.builtInSpawned), ("rescanned_tables", s.rescannedTables),
    ("allocation_sites_seen", s.allocationSitesSeen), ("queries_skipped", s.queriesSkipped)]

end Statistics

end GuidedDataflow
