import Mathlib.Algebra.BigOperators.Group.Finset.Piecewise
import Mathlib.Algebra.Order.BigOperators.Group.Finset
import Mathlib.Algebra.Order.Group.Multiset
import Mathlib.Data.Fintype.Basic
import Mathlib.Tactic.Common

/-!
Counting semaphores, and the parties of a system that are inside a region of
their program. A semaphore that is waited for at the entry of a region and
posted at its exit keeps the sum of its value and of the parties inside.
-/
namespace Semaphore

/-- A wait takes one unit, and cannot happen while there is none. -/
def semWait : Nat → Option Nat
  | 0 => none
  | value + 1 => some value

def semPost (value : Nat) : Nat := value + 1

theorem semWait_eq_some {v w : Nat} : semWait v = some w ↔ v = w + 1 := by
  cases v with
  | zero => simp [semWait]
  | succ v => simp [semWait]

section Occupants
variable {ι Pc : Type*} [Fintype ι]

def occupants (region : Pc → Bool) (pc : ι → Pc) : Nat :=
  (Finset.univ.filter fun i => region (pc i)).card

variable {region : Pc → Bool} {pc : ι → Pc}

theorem occupants_pos {i : ι} (h : region (pc i)) : 0 < occupants region pc :=
  Finset.card_pos.mpr ⟨i, by simp [h]⟩

theorem exists_occupant (h : 0 < occupants region pc) : ∃ i, region (pc i) := by
  obtain ⟨i, hi⟩ := Finset.card_pos.mp h
  exact ⟨i, by simpa using hi⟩

theorem occupants_eq_sum (region : Pc → Bool) (pc : ι → Pc) :
    occupants region pc = ∑ i, (region (pc i)).toNat := by
  rw [occupants, Finset.card_filter]
  refine Finset.sum_congr rfl fun i _ => ?_
  cases region (pc i) <;> rfl

variable [DecidableEq ι]

/-- A party that moves takes its own part of the sum with it. -/
theorem sum_update {M : Type*} [AddCommMonoid M] (f : Pc → M) (pc : ι → Pc) (i : ι) (c : Pc) :
    ∑ j, f (Function.update pc i c j) + f (pc i) = ∑ j, f (pc j) + f c := by
  have hothers : ∑ j ∈ Finset.univ.erase i, f (Function.update pc i c j) =
      ∑ j ∈ Finset.univ.erase i, f (pc j) := by
    refine Finset.sum_congr rfl fun j hj => ?_
    rw [Function.update_of_ne (Finset.ne_of_mem_erase hj)]
  rw [← Finset.sum_erase_add _ _ (Finset.mem_univ i), hothers, Function.update_self,
    add_right_comm, Finset.sum_erase_add _ _ (Finset.mem_univ i)]

/-- A party that moves leaves where it stood and is counted where it goes. -/
theorem occupants_update (region : Pc → Bool) (pc : ι → Pc) (i : ι) (c : Pc) :
    occupants region (Function.update pc i c) + (region (pc i)).toNat =
      occupants region pc + (region c).toNat := by
  rw [occupants_eq_sum, occupants_eq_sum]
  exact sum_update (fun c => (region c).toNat) pc i c

theorem pair_le_sum {α : Type*} (f : ι → Multiset α) {i j : ι} (h : i ≠ j) :
    f i + f j ≤ ∑ k, f k := by
  rw [← Finset.sum_pair h]
  exact Finset.sum_le_sum_of_subset (Finset.subset_univ _)

end Occupants

end Semaphore
