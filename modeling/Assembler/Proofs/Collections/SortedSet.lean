import Assembler.Collections.SortedSet
import Mathlib.Data.List.Sort

/-! # Sorted sets as sets

A set is determined by its members, and its size is their number. So a set inside another is no
larger, and equal to it as soon as it is no smaller.
-/

namespace Assembler

open Std

section Precedes

-- what makes a strictly sorted list free of repetitions, and the only one with its members
variable {α κ : Type} [Ord κ] [TransOrd κ] (key : α → κ)

instance irrefl_precedes : Irrefl fun a b : α => compare (key a) (key b) = .lt :=
  ⟨fun _ => by simp⟩

instance antisymm_precedes : Antisymm fun a b : α => compare (key a) (key b) = .lt :=
  ⟨fun _ _ before after => absurd (OrientedCmp.gt_of_lt before) (by simp [after])⟩

end Precedes

namespace SortedSet

variable {α : Type} [Ord α] [TransOrd α]

theorem nodup (s : SortedSet α) : s.toList.Nodup :=
  s.sorted.nodup

@[ext] theorem ext {s t : SortedSet α} (h : ∀ a, a ∈ s ↔ a ∈ t) : s = t := by
  have lists : s.toList = t.toList := s.sorted.eq_of_mem_iff t.sorted h
  cases s
  cases t
  cases lists
  rfl

theorem size_le_of_subset {s : SortedSet α} {xs : List α} (h : ∀ a ∈ s, a ∈ xs) :
    s.size ≤ xs.length :=
  (List.subperm_of_subset s.nodup h).length_le

theorem eq_of_subset {s t : SortedSet α} (h : ∀ a ∈ s, a ∈ t) (smaller : t.size ≤ s.size) :
    s = t := by
  have same : s.toList.Perm t.toList := (List.subperm_of_subset s.nodup h).perm_of_length_le smaller
  ext a
  exact same.mem_iff

end SortedSet

end Assembler
