import Mathlib.Tactic.Linarith
import Mathlib.Tactic.Positivity
import GuidedDataflow.Solver.Exploration
import GuidedDataflow.Solver.FactBound

/-!
The rounds of an exploration have room for every fact that the bound counts: so many rounds
have fuel up to a power of two, and that power of two is greater than the bound.
-/

namespace GuidedDataflow

theorem Exploration.totalFuel_add (rounds fuel : Nat) :
    Exploration.totalFuel rounds fuel + fuel = fuel * 2 ^ rounds := by
  induction rounds generalizing fuel with
  | zero => simp [Exploration.totalFuel]
  | succ rounds ih =>
    have h := ih (2 * fuel)
    rw [Exploration.totalFuel, pow_succ]
    linarith

theorem stringCount_le_pow (sites depth : Nat) :
    stringCount sites depth ≤ (sites + 1) ^ depth := by
  induction depth with
  | zero => simp [stringCount]
  | succ depth ih =>
    have h1 : 1 ≤ (sites + 1) ^ depth := Nat.one_le_pow _ _ (Nat.succ_pos sites)
    have h2 := Nat.mul_le_mul_left sites ih
    rw [stringCount, pow_succ]
    linarith

theorem lt_two_pow_bitLength (n : Nat) : n < 2 ^ bitLength n := Nat.lt_log2_self

theorem factBound_lt_two_pow (p : Program) (depth : Nat) (seeds : OrderedSet CallString) :
    factBound p depth seeds < 2 ^ factBits p depth seeds := by
  have h1 := lt_two_pow_bitLength (p.edges.length + 1)
  have h2 := (lt_two_pow_bitLength (p.values.length + 1)).le
  have h3 : stringCount (siteCount p seeds) (max depth (longest seeds)) ≤
      2 ^ (bitLength (siteCount p seeds + 1) * max depth (longest seeds)) := by
    rw [pow_mul]
    exact (stringCount_le_pow _ _).trans
      (Nat.pow_le_pow_left (lt_two_pow_bitLength _).le _)
  have h4 : (p.edges.length + 1) * (p.values.length + 1) <
      2 ^ bitLength (p.edges.length + 1) * 2 ^ bitLength (p.values.length + 1) :=
    Nat.mul_lt_mul_of_lt_of_le h1 h2 (by positivity)
  rw [factBound, factBits, pow_add, pow_add]
  exact Nat.mul_lt_mul_of_lt_of_le h4 h3 (by positivity)

/-- An exploration's rounds suffice for all facts that there can be. -/
theorem factBound_le_totalFuel (p : Program) (depth : Nat) (seeds : OrderedSet CallString) :
    factBound p depth seeds ≤ Exploration.totalFuel (factBits p depth seeds) 1 := by
  have h1 := factBound_lt_two_pow p depth seeds
  have h2 := Exploration.totalFuel_add (factBits p depth seeds) 1
  omega

end GuidedDataflow
