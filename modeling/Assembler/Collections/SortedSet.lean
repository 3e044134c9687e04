/-! # Finite sets as sorted lists

A set is the strictly increasing list of its members, so two sets with the same members are
equal values. Item sets rely on this: a state of the automaton is recognised by comparing its
items with those of the states already known.
-/

namespace Assembler

open Std

/-- Insert into a sorted list, leaving it alone if the element is already there. -/
def insertSorted {α : Type} [Ord α] (x : α) : List α → List α
  | [] => [x]
  | y :: ys =>
      match compare x y with
      | .lt => x :: y :: ys
      | .eq => y :: ys
      | .gt => y :: insertSorted x ys

/-- Every member precedes all members after it. -/
abbrev StrictlySorted {α : Type} [Ord α] (xs : List α) : Prop :=
  xs.Pairwise (compare · · = .lt)

theorem mem_insertSorted {α : Type} [Ord α] [LawfulEqOrd α] {x a : α} {xs : List α} :
    a ∈ insertSorted x xs ↔ a = x ∨ a ∈ xs := by
  induction xs with
  | nil => simp [insertSorted]
  | cons y ys ih =>
      rw [insertSorted]
      split
      · simp
      · next h =>
          have : x = y := LawfulEqCmp.eq_of_compare h
          subst this
          simp
      · simp only [List.mem_cons, ih]
        exact or_left_comm

theorem strictlySorted_insertSorted {α : Type} [Ord α] [TransOrd α] [LawfulEqOrd α] (x : α)
    {xs : List α} (h : StrictlySorted xs) : StrictlySorted (insertSorted x xs) := by
  induction xs with
  | nil => simp [insertSorted, StrictlySorted]
  | cons y ys ih =>
      have hy := List.pairwise_cons.1 h
      rw [insertSorted]
      split
      · next hlt =>
          refine List.pairwise_cons.2 ⟨?_, h⟩
          intro z hz
          rcases List.mem_cons.1 hz with rfl | hz
          · exact hlt
          · exact TransCmp.lt_trans hlt (hy.1 z hz)
      · exact h
      · next hgt =>
          refine List.pairwise_cons.2 ⟨?_, ih hy.2⟩
          intro z hz
          rcases mem_insertSorted.1 hz with rfl | hz
          · exact OrientedCmp.lt_of_gt hgt
          · exact hy.1 z hz

/-- A finite set, listed in increasing order. -/
structure SortedSet (α : Type) [Ord α] where
  /-- The members in increasing order. -/
  toList : List α
  /-- The list is strictly increasing. -/
  sorted : StrictlySorted toList
  deriving DecidableEq

namespace SortedSet

variable {α β : Type} [Ord α] [Ord β]

/-- The set without members. -/
def empty : SortedSet α := ⟨[], .nil⟩

instance : Inhabited (SortedSet α) := ⟨empty⟩

instance : Membership α (SortedSet α) := ⟨fun s x => x ∈ s.toList⟩

instance [DecidableEq α] (x : α) (s : SortedSet α) : Decidable (x ∈ s) :=
  inferInstanceAs (Decidable (x ∈ s.toList))

theorem mem_def {x : α} {s : SortedSet α} : x ∈ s ↔ x ∈ s.toList := Iff.rfl

@[simp] theorem mem_toList {x : α} {s : SortedSet α} : x ∈ s.toList ↔ x ∈ s := Iff.rfl

/-- The number of members. -/
def size (s : SortedSet α) : Nat := s.toList.length

/-- Add one member. -/
def insert [TransOrd α] [LawfulEqOrd α] (s : SortedSet α) (x : α) : SortedSet α :=
  ⟨insertSorted x s.toList, strictlySorted_insertSorted x s.sorted⟩

/-- Add every element of a list. -/
def insertAll [TransOrd α] [LawfulEqOrd α] (s : SortedSet α) (xs : List α) : SortedSet α :=
  xs.foldl insert s

/-- The set of the elements of a list. -/
def ofList [TransOrd α] [LawfulEqOrd α] (xs : List α) : SortedSet α :=
  empty.insertAll xs

/-- The members of either set. -/
def union [TransOrd α] [LawfulEqOrd α] (s t : SortedSet α) : SortedSet α :=
  s.insertAll t.toList

instance [TransOrd α] [LawfulEqOrd α] : Union (SortedSet α) := ⟨union⟩

@[simp] theorem not_mem_empty {x : α} : x ∉ (empty : SortedSet α) := List.not_mem_nil

@[simp] theorem mem_insert [TransOrd α] [LawfulEqOrd α] {s : SortedSet α} {x a : α} :
    a ∈ s.insert x ↔ a = x ∨ a ∈ s :=
  mem_insertSorted

@[simp] theorem mem_insertAll [TransOrd α] [LawfulEqOrd α] {s : SortedSet α} {xs : List α} {a : α} :
    a ∈ s.insertAll xs ↔ a ∈ xs ∨ a ∈ s := by
  induction xs generalizing s with
  | nil => simp [insertAll]
  | cons x xs ih =>
      show a ∈ (s.insert x).insertAll xs ↔ _
      rw [ih, mem_insert, List.mem_cons, or_left_comm, or_assoc]

@[simp] theorem mem_ofList [TransOrd α] [LawfulEqOrd α] {xs : List α} {a : α} :
    a ∈ ofList xs ↔ a ∈ xs := by
  simp [ofList]

@[simp] theorem mem_union [TransOrd α] [LawfulEqOrd α] {s t : SortedSet α} {a : α} :
    a ∈ s ∪ t ↔ a ∈ s ∨ a ∈ t := by
  show a ∈ s.insertAll t.toList ↔ _
  rw [mem_insertAll, ← mem_def, or_comm]

end SortedSet

end Assembler
