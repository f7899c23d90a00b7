import Mathlib.Algebra.Ring.Nat
import Mathlib.Data.List.Basic
import Mathlib.Data.List.Count
import Mathlib.Data.List.Infix

/-!
A list of threads of which one moves at a time: what holds of all of them, and how many
of them stand where a predicate says.
-/
namespace Threads

variable {α : Type*} {threads : List α} {p : α → Bool} {C : α → Prop} {v w w' : α} {j k : Nat}

theorem getElem?_set_iff (hw : threads[k]? = some w) :
    (threads.set k w')[j]? = some v ↔ (j = k ∧ v = w') ∨ (j ≠ k ∧ threads[j]? = some v) := by
  have hk := (List.getElem?_eq_some_iff.mp hw).1
  rw [List.getElem?_set]
  by_cases hj : k = j
  · subst hj
    simp [hk, eq_comm]
  · simp [hj, Ne.symm hj]

/-- The threads after a step of thread `k`: the one that moved, or another one. -/
theorem mem_set_iff (hw : threads[k]? = some w) :
    v ∈ threads.set k w' ↔ v = w' ∨ ∃ j, j ≠ k ∧ threads[j]? = some v := by
  rw [List.mem_iff_getElem?]
  simp only [getElem?_set_iff hw]
  constructor
  · rintro ⟨j, ⟨_, rfl⟩ | ⟨hne, hj⟩⟩
    · exact .inl rfl
    · exact .inr ⟨j, hne, hj⟩
  · rintro (rfl | ⟨j, hne, hj⟩)
    · exact ⟨k, .inl ⟨rfl, rfl⟩⟩
    · exact ⟨j, .inr ⟨hne, hj⟩⟩

/-- What holds of all threads still does when one of them has moved. -/
theorem forall_moved (hothers : ∀ v ∈ threads, C v) (hmoved : C w') : ∀ v ∈ threads.set k w', C v :=
  fun v hv => (List.mem_or_eq_of_mem_set hv).elim (hothers v) fun heq => heq ▸ hmoved

theorem forall_created (hothers : ∀ v ∈ threads, C v) (hnew : C w') :
    ∀ v ∈ threads ++ [w'], C v :=
  List.forall_mem_append.mpr ⟨hothers, List.forall_mem_singleton.mpr hnew⟩

/-- The thread that moved is counted where it stands now, and no longer where it stood. -/
theorem countP_moved (p : α → Bool) (hw : threads[k]? = some w) (w' : α) :
    (threads.set k w').countP p + (p w).toNat = threads.countP p + (p w').toNat := by
  obtain ⟨hk, rfl⟩ := List.getElem?_eq_some_iff.mp hw
  have hle := List.boole_getElem_le_countP (p := p) hk
  rw [List.countP_set hk]
  cases hold : p threads[k] with
  | false => cases p w' <;> simp
  | true =>
      simp only [hold, if_true] at hle
      cases p w' with
      | false =>
          simp only [if_true, Bool.toNat_true, Bool.false_eq_true, if_false, Bool.toNat_false]
          omega
      | true =>
          simp only [if_true, Bool.toNat_true]
          omega

theorem countP_pos (hw : threads[k]? = some w) (h : p w) : 0 < threads.countP p :=
  List.countP_pos_iff.mpr ⟨w, List.mem_of_getElem? hw, h⟩

/-- The thread that moved takes its own part of a sum with it. -/
theorem sum_moved (f : α → Nat) (hw : threads[k]? = some w) (w' : α) :
    ((threads.set k w').map f).sum + f w = (threads.map f).sum + f w' := by
  induction threads generalizing k with
  | nil => cases hw
  | cons v threads ih =>
      cases k with
      | zero =>
          cases hw
          simp only [List.set_cons_zero, List.map_cons, List.sum_cons]
          omega
      | succ k =>
          have hrest := ih (show threads[k]? = some w from hw)
          simp only [List.set_cons_succ, List.map_cons, List.sum_cons]
          omega

/-- One position at most holds something that is counted once. -/
theorem position_unique (hone : threads.countP p ≤ 1) (hj : threads[j]? = some v)
    (hk : threads[k]? = some w) (hv : p v) (hw : p w) : j = k := by
  induction threads generalizing j k with
  | nil => cases hj
  | cons u threads ih =>
      rw [List.countP_cons] at hone
      cases j with
      | zero =>
          cases k with
          | zero => rfl
          | succ k =>
              cases hj
              have hpos := countP_pos (show threads[k]? = some w from hk) hw
              rw [if_pos hv] at hone
              omega
      | succ j =>
          cases k with
          | zero =>
              cases hk
              have hpos := countP_pos (show threads[j]? = some v from hj) hv
              rw [if_pos hw] at hone
              omega
          | succ k => rw [ih (by omega) hj hk]

end Threads
