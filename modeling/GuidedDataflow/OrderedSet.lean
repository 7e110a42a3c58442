import Std.Data.TreeSet

/-!
Finite sets kept as strictly increasing lists. Each set has one representation, so sets
compare by their lists, may serve as keys, and list their members in order. Insertion,
membership and extensionality are the interface; later modules use nothing else.
-/

namespace GuidedDataflow

open Std

/-- Comparing by two keys in turn separates whatever the keys together separate. -/
theorem eq_of_compareLex {α : Type _} {f g : α → α → Ordering} {a b : α}
    (h : compareLex f g a b = .eq) : f a b = .eq ∧ g a b = .eq := by
  simp only [compareLex] at h
  cases hf : f a b <;> simp_all [Ordering.then]

/-- Comparing by a key separates whatever the key separates. -/
theorem eq_of_compareOn {α β : Type _} [Ord β] [LawfulEqOrd β] {f : α → β} {a b : α}
    (h : compareOn f a b = .eq) : f a = f b := by
  unfold compareOn at h
  exact LawfulEqCmp.eq_of_compare h

/-- A strictly increasing list. -/
def Increasing {α : Type _} [Ord α] (l : List α) : Prop :=
  l.Pairwise fun a b => compare a b = .lt

/-- Puts `a` at its place, or leaves the list alone where `a` already stands. -/
def insertIncreasing {α : Type _} [Ord α] (a : α) : List α → List α
  | [] => [a]
  | b :: l =>
    match compare a b with
    | .lt => a :: b :: l
    | .eq => b :: l
    | .gt => b :: insertIncreasing a l

section
variable {α : Type _} [Ord α] [LawfulEqOrd α]

theorem mem_insertIncreasing {a x : α} {l : List α} :
    x ∈ insertIncreasing a l ↔ x = a ∨ x ∈ l := by
  induction l with
  | nil => simp [insertIncreasing]
  | cons b l ih =>
    simp only [insertIncreasing]
    split
    · simp
    · next h =>
      have hab : a = b := LawfulEqCmp.eq_of_compare h
      simp [hab]
    · simp [ih]
      constructor
      · rintro (h | h | h) <;> simp [h]
      · rintro (h | h | h) <;> simp [h]

theorem Increasing.insertIncreasing [TransOrd α] {a : α} {l : List α} (h : Increasing l) :
    Increasing (insertIncreasing a l) := by
  induction l with
  | nil => simp [GuidedDataflow.insertIncreasing, Increasing]
  | cons b l ih =>
    have hb : ∀ x ∈ l, compare b x = .lt := (List.pairwise_cons.1 h).1
    have hl : Increasing l := (List.pairwise_cons.1 h).2
    simp only [GuidedDataflow.insertIncreasing]
    split
    · next hab =>
      refine List.pairwise_cons.2 ⟨?_, h⟩
      intro x hx
      rcases List.mem_cons.1 hx with rfl | hx
      · exact hab
      · exact TransCmp.lt_trans hab (hb x hx)
    · exact h
    · next hab =>
      refine List.pairwise_cons.2 ⟨?_, ih hl⟩
      intro x hx
      rcases mem_insertIncreasing.1 hx with rfl | hx
      · exact OrientedCmp.gt_iff_lt.1 hab
      · exact hb x hx

theorem not_mem_of_forall_lt {a : α} {l : List α} (h : ∀ x ∈ l, compare a x = .lt) :
    a ∉ l := by
  intro ha
  have := h a ha
  simp [ReflCmp.compare_self] at this

/-- Increasing lists with the same members are the same list. -/
theorem Increasing.ext [TransOrd α] {l m : List α} (hl : Increasing l) (hm : Increasing m)
    (h : ∀ x, x ∈ l ↔ x ∈ m) : l = m := by
  induction l generalizing m with
  | nil =>
    cases m with
    | nil => rfl
    | cons b m => exact absurd ((h b).2 (by simp)) (by simp)
  | cons a l ih =>
    cases m with
    | nil => exact absurd ((h a).1 (by simp)) (by simp)
    | cons b m =>
      have ha := (List.pairwise_cons.1 hl).1
      have hb := (List.pairwise_cons.1 hm).1
      have hab : a = b := by
        rcases List.mem_cons.1 ((h a).1 (by simp)) with e | e
        · exact e
        · rcases List.mem_cons.1 ((h b).2 (by simp)) with e' | e'
          · exact e'.symm
          · have h1 := hb a e
            have h2 := ha b e'
            have h3 := TransCmp.lt_trans h1 h2
            simp [ReflCmp.compare_self] at h3
      subst hab
      congr 1
      refine ih (List.pairwise_cons.1 hl).2 (List.pairwise_cons.1 hm).2 fun x => ?_
      have hx := h x
      simp only [List.mem_cons] at hx
      constructor
      · intro hxl
        rcases hx.1 (Or.inr hxl) with rfl | e
        · exact absurd hxl (not_mem_of_forall_lt ha)
        · exact e
      · intro hxm
        rcases hx.2 (Or.inr hxm) with rfl | e
        · exact absurd hxm (not_mem_of_forall_lt hb)
        · exact e

end

/-- A finite set, listed in increasing order. -/
structure OrderedSet (α : Type _) [Ord α] where
  toList : List α
  increasing : Increasing toList

namespace OrderedSet

variable {α : Type _} [Ord α]

instance [DecidableEq α] : DecidableEq (OrderedSet α) := fun s t =>
  decidable_of_iff (s.toList = t.toList) (by cases s; cases t; simp)

/-- Sets are ordered by their lists. -/
instance : Ord (OrderedSet α) := ⟨compareOn OrderedSet.toList⟩

instance [TransOrd α] : TransOrd (OrderedSet α) :=
  inferInstanceAs (TransCmp (compareOn OrderedSet.toList))

instance [LawfulEqOrd α] : LawfulEqOrd (OrderedSet α) where
  toReflCmp := inferInstanceAs (ReflCmp (compareOn OrderedSet.toList))
  eq_of_compare {s t} h := by
    have : s.toList = t.toList := eq_of_compareOn h
    cases s; cases t; simp_all

instance : Membership α (OrderedSet α) := ⟨fun s a => a ∈ s.toList⟩

theorem mem_def {s : OrderedSet α} {a : α} : a ∈ s ↔ a ∈ s.toList := Iff.rfl

instance [DecidableEq α] (a : α) (s : OrderedSet α) : Decidable (a ∈ s) :=
  inferInstanceAs (Decidable (a ∈ s.toList))

def empty : OrderedSet α := ⟨[], List.Pairwise.nil⟩

instance : EmptyCollection (OrderedSet α) := ⟨empty⟩

instance : Inhabited (OrderedSet α) := ⟨empty⟩

def singleton (a : α) : OrderedSet α := ⟨[a], by simp [Increasing]⟩

def size (s : OrderedSet α) : Nat := s.toList.length

def isEmpty (s : OrderedSet α) : Bool := s.toList.isEmpty

@[simp] theorem not_mem_empty (a : α) : ¬ a ∈ (empty : OrderedSet α) := by
  simp [mem_def, empty]

@[simp] theorem mem_singleton {a x : α} : x ∈ singleton a ↔ x = a := by
  simp [mem_def, singleton]

variable [LawfulEqOrd α]

theorem nodup_toList (s : OrderedSet α) : s.toList.Nodup := by
  refine s.increasing.imp fun {a b} h hab => ?_
  subst hab
  simp [ReflCmp.compare_self] at h

variable [TransOrd α]

def insert (a : α) (s : OrderedSet α) : OrderedSet α :=
  ⟨insertIncreasing a s.toList, s.increasing.insertIncreasing⟩

/-- The set of a list's members. -/
def ofList (l : List α) : OrderedSet α := l.foldr insert empty

def union (s t : OrderedSet α) : OrderedSet α := s.toList.foldr insert t

@[simp] theorem mem_insert {a x : α} {s : OrderedSet α} :
    x ∈ s.insert a ↔ x = a ∨ x ∈ s :=
  mem_insertIncreasing

theorem mem_foldr_insert {l : List α} {s : OrderedSet α} {x : α} :
    x ∈ l.foldr insert s ↔ x ∈ l ∨ x ∈ s := by
  induction l with
  | nil => simp
  | cons a l ih => simp [ih, or_assoc]

@[simp] theorem mem_ofList {l : List α} {x : α} : x ∈ ofList l ↔ x ∈ l := by
  simp [ofList, mem_foldr_insert]

@[simp] theorem mem_union {s t : OrderedSet α} {x : α} : x ∈ s.union t ↔ x ∈ s ∨ x ∈ t :=
  mem_foldr_insert

/-- A set is determined by its members. -/
theorem ext {s t : OrderedSet α} (h : ∀ x, x ∈ s ↔ x ∈ t) : s = t := by
  have : s.toList = t.toList := s.increasing.ext t.increasing h
  cases s; cases t; simp_all

end OrderedSet

end GuidedDataflow
