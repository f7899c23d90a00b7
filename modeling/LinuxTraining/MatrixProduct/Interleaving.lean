import LinuxTraining.MatrixProduct.Threads
import Mathlib.Algebra.BigOperators.Group.Finset.Basic
import Mathlib.Algebra.GroupWithZero.Nat
import Mathlib.Algebra.Order.BigOperators.Group.Finset

/-!
Whatever the order of their steps, the workers compute the product of
`calculate_product_matrix`. The invariant ties the position of each worker to
the cells it has written; a measure shows that every run comes to an end.
-/
namespace LinuxTraining.MatrixProduct
open Execution

variable {α : Type*} [Zero α] [Add α] [Mul α] {a b : MatrixT α} {numThreads : Nat}

def WorkerOk (a b : MatrixT α) (data : ThreadData) : WorkerPc α → Prop
  | .rows i => data.startRow ≤ i ∧ i ≤ data.endRow
  | .cols i j => data.startRow ≤ i ∧ i < data.endRow ∧ j ≤ b.col
  | .terms i j k sum =>
      data.startRow ≤ i ∧ i < data.endRow ∧ j < b.col ∧ k ≤ a.col ∧ sum = dot a b i j k
  | .exited => True

omit [Zero α] [Add α] [Mul α] in
def Done (b : MatrixT α) (data : ThreadData) (i j : Nat) : WorkerPc α → Prop
  | .rows i₀ => data.startRow ≤ i ∧ i < i₀ ∧ j < b.col
  | .cols i₀ j₀ | .terms i₀ j₀ _ _ =>
      data.startRow ≤ i ∧ (i < i₀ ∧ j < b.col ∨ i = i₀ ∧ j < j₀)
  | .exited => data.startRow ≤ i ∧ i < data.endRow ∧ j < b.col

/-- A worker has written in its own rows only. -/
theorem done_range {data : ThreadData} {pc : WorkerPc α} {i j : Nat}
    (hok : WorkerOk a b data pc) (h : Done b data i j pc) :
    data.startRow ≤ i ∧ i < data.endRow := by
  cases pc <;> simp only [WorkerOk, Done] at hok h <;> omega

theorem multiplyRows_silent {data : ThreadData} {pc pc' : WorkerPc α}
    (hok : WorkerOk a b data pc) (h : multiplyRows a b data pc = some (pc', none)) :
    WorkerOk a b data pc' ∧ ∀ i j, Done b data i j pc' ↔ Done b data i j pc := by
  cases pc with
  | exited => simp [multiplyRows] at h
  | rows i =>
      simp only [multiplyRows] at h
      split at h <;> simp only [Option.some.injEq, Prod.mk.injEq, and_true] at h <;> subst h <;>
        simp only [WorkerOk, Done] at hok ⊢
      · exact ⟨by omega, fun i' j' => by omega⟩
      · exact ⟨trivial, fun i' j' => by omega⟩
  | cols i j =>
      simp only [multiplyRows] at h
      split at h <;> simp only [Option.some.injEq, Prod.mk.injEq, and_true] at h <;> subst h <;>
        simp only [WorkerOk, Done] at hok ⊢
      · exact ⟨⟨hok.1, hok.2.1, by omega, by omega, rfl⟩, fun i' j' => trivial⟩
      · exact ⟨by omega, fun i' j' => by omega⟩
  | terms i j k sum =>
      simp only [multiplyRows] at h
      split at h <;> simp at h
      subst h
      simp only [WorkerOk, Done] at hok ⊢
      refine ⟨⟨hok.1, hok.2.1, hok.2.2.1, by omega, ?_⟩, fun i' j' => trivial⟩
      rw [dot_succ, hok.2.2.2.2]

/-- A write puts the whole sum into a cell of the worker's own rows that it has not
written before. -/
theorem multiplyRows_write {data : ThreadData} {pc pc' : WorkerPc α} {i j : Nat} {sum : α}
    (hok : WorkerOk a b data pc)
    (h : multiplyRows a b data pc = some (pc', some (i, j, sum))) :
    WorkerOk a b data pc' ∧ sum = dot a b i j a.col ∧
    data.startRow ≤ i ∧ i < data.endRow ∧ j < b.col ∧ ¬ Done b data i j pc ∧
    ∀ i' j', Done b data i' j' pc' ↔ Done b data i' j' pc ∨ (i' = i ∧ j' = j) := by
  cases pc with
  | exited => simp [multiplyRows] at h
  | rows i₀ =>
      simp only [multiplyRows] at h
      split at h <;> simp at h
  | cols i₀ j₀ =>
      simp only [multiplyRows] at h
      split at h <;> simp at h
  | terms i₀ j₀ k sum₀ =>
      simp only [multiplyRows] at h
      split at h <;> simp at h
      obtain ⟨rfl, rfl, rfl, rfl⟩ := h
      simp only [WorkerOk, Done] at hok ⊢
      have hk : k = a.col := by omega
      refine ⟨by omega, ?_, hok.1, hok.2.1, hok.2.2.1, by omega, fun i' j' => by omega⟩
      rw [hok.2.2.2.2, hk]

theorem multiplyRows_active {data : ThreadData} {pc : WorkerPc α}
    {next : WorkerPc α × Option (Nat × Nat × α)}
    (h : multiplyRows a b data pc = some next) : pc ≠ .exited := by
  rintro rfl
  simp [multiplyRows] at h

/-- How many workers main has created, and how many it has joined. -/
def MainPc.created (numThreads : Nat) : MainPc → Nat
  | .entry | .returnedNull => 0
  | .creating i _ => i
  | .joining _ | .returned => numThreads

def MainPc.joined (numThreads : Nat) : MainPc → Nat
  | .joining i => i
  | .returned => numThreads
  | _ => 0

def MainOk (a b : MatrixT α) (numThreads : Nat) : MainPc → Prop
  | .entry => True
  | .creating i startRow =>
      a.col = b.row ∧ i ≤ numThreads ∧ startRow = rowsBefore a.row numThreads i
  | .joining i => a.col = b.row ∧ i ≤ numThreads
  | .returnedNull => a.col ≠ b.row
  | .returned => a.col = b.row

structure Invariant (a b : MatrixT α) (numThreads : Nat) (s : State α) : Prop where
  main : MainOk a b numThreads s.main
  created : ∀ t, (∃ w, s.workers t = some w) ↔ t < s.main.created numThreads
  worker : ∀ t w, s.workers t = some w →
    w.data = ⟨rowsBefore a.row numThreads t, rowsBefore a.row numThreads (t + 1)⟩ ∧
    WorkerOk a b w.data w.pc
  joined : ∀ t, t < s.main.joined numThreads → ∃ data, s.workers t = some ⟨data, .exited⟩
  writes : ∀ t i j, (t, i, j) ∈ s.writes ↔ ∃ w, s.workers t = some w ∧ Done b w.data i j w.pc
  once : (s.writes.map Prod.snd).Nodup
  result : ∀ t i j, (t, i, j) ∈ s.writes → s.result i j = dot a b i j a.col

theorem Invariant.initial (fresh : Nat → Nat → α) :
    Invariant a b numThreads (initialState fresh) where
  main := trivial
  created t := by simp [initialState, MainPc.created]
  worker t w h := by simp [initialState] at h
  joined t h := by simp [initialState, MainPc.joined] at h
  writes t i j := by simp [initialState]
  once := by simp [initialState]
  result t i j h := by simp [initialState] at h

theorem Invariant.move {s : State α} (h : Invariant a b numThreads s) {main : MainPc}
    (hmain : MainOk a b numThreads main)
    (hcreated : main.created numThreads = s.main.created numThreads)
    (hjoined : ∀ t, t < main.joined numThreads → ∃ data, s.workers t = some ⟨data, .exited⟩) :
    Invariant a b numThreads { s with main := main } where
  main := hmain
  created t := by
    rw [hcreated]
    exact h.created t
  worker := h.worker
  joined := hjoined
  writes := h.writes
  once := h.once
  result := h.result

theorem Invariant.create {s : State α}
    (h : Invariant a b numThreads s) {i startRow : Nat} (hpc : s.main = .creating i startRow)
    (hi : i < numThreads) :
    Invariant a b numThreads
      { s with
        main := .creating (i + 1) (endRow a numThreads i startRow)
        workers := Function.update s.workers i
          (some ⟨⟨startRow, endRow a numThreads i startRow⟩, .rows startRow⟩) } := by
  have hmain := h.main
  rw [hpc] at hmain
  obtain ⟨hshape, _, hstart⟩ := hmain
  have hend : endRow a numThreads i startRow = rowsBefore a.row numThreads (i + 1) := by
    rw [hstart, endRow_eq a hi]
  have hfree : s.workers i = none := by
    have := h.created i
    rw [hpc] at this
    cases hw : s.workers i with
    | none => rfl
    | some w => exact absurd (this.mp ⟨w, hw⟩) (by simp [MainPc.created])
  rw [hend]
  constructor
  · exact ⟨hshape, by omega, rfl⟩
  · intro t
    have hold := h.created t
    rw [hpc] at hold
    simp only [MainPc.created] at hold ⊢
    by_cases hti : t = i
    · subst hti
      simp
    · rw [Function.update_of_ne hti, hold]
      omega
  · intro t w hw
    by_cases hti : t = i
    · subst hti
      simp only [Function.update_self, Option.some.injEq] at hw
      subst hw
      refine ⟨by rw [hstart], Nat.le_refl _, ?_⟩
      simp only [hstart]
      exact rowsBefore_mono _ _ (by omega)
    · simp only [Function.update_of_ne hti] at hw
      exact h.worker t w hw
  · intro t ht
    simp [MainPc.joined] at ht
  · intro t i' j'
    by_cases hti : t = i
    · subst hti
      have hnone : ¬ (t, i', j') ∈ s.writes := by
        rw [h.writes]
        rintro ⟨w, hw, _⟩
        rw [hfree] at hw
        cases hw
      simp only [hnone, Function.update_self, Option.some.injEq, exists_eq_left', Done, false_iff]
      omega
    · simp only [Function.update_of_ne hti]
      exact h.writes t i' j'
  · exact h.once
  · exact h.result

theorem Invariant.mainStep (hn : 1 ≤ numThreads) {s t : State α}
    (h : Invariant a b numThreads s) (hstep : mainStep a b numThreads s = some t) :
    Invariant a b numThreads t := by
  have hmain := h.main
  cases hpc : s.main with
  | entry =>
      simp only [MatrixProduct.mainStep, hpc] at hstep
      split at hstep <;> simp only [Option.some.injEq] at hstep <;> subst hstep
      · rename_i hshape
        exact h.move hshape (by rw [hpc]; rfl) (fun t ht => by simp [MainPc.joined] at ht)
      · rename_i hshape
        exact h.move ⟨not_not.mp hshape, by omega, (rowsBefore_zero hn).symm⟩
          (by rw [hpc]; rfl) (fun t ht => by simp [MainPc.joined] at ht)
  | creating i startRow =>
      rw [hpc] at hmain
      simp only [MatrixProduct.mainStep, hpc] at hstep
      split at hstep <;> simp only [Option.some.injEq] at hstep <;> subst hstep
      · exact h.create hpc (by assumption)
      · refine h.move ⟨hmain.1, by omega⟩ ?_ (fun t ht => by simp [MainPc.joined] at ht)
        have := hmain.2.1
        rw [hpc]
        simp only [MainPc.created]
        omega
  | joining i =>
      have hjoined := h.joined
      rw [hpc] at hmain hjoined
      simp only [MatrixProduct.mainStep, hpc] at hstep
      split at hstep
      · split at hstep <;> simp only [Option.some.injEq, reduceCtorEq] at hstep
        rename_i hlt _ data hexited
        subst hstep
        refine h.move ⟨hmain.1, hlt⟩ (by rw [hpc]; rfl) ?_
        intro t ht
        simp only [MainPc.joined] at ht hjoined
        by_cases hti : t = i
        · exact ⟨data, hti ▸ hexited⟩
        · exact hjoined t (by omega)
      · simp only [Option.some.injEq] at hstep
        subst hstep
        refine h.move hmain.1 (by rw [hpc]; rfl) ?_
        intro t ht
        simp only [MainPc.joined] at ht hjoined
        exact hjoined t (by omega)
  | returnedNull => simp [MatrixProduct.mainStep, hpc] at hstep
  | returned => simp [MatrixProduct.mainStep, hpc] at hstep

/-- A worker that moves to a position inside its rows keeps the invariant, when the
written cells and their contents are again what its position says. -/
theorem Invariant.advance {s : State α} (h : Invariant a b numThreads s) {t : Nat}
    {w : Worker α} (hw : s.workers t = some w) {pc : WorkerPc α}
    {result : Nat → Nat → α} {writes : List (Nat × Nat × Nat)}
    (hactive : w.pc ≠ .exited) (hok : WorkerOk a b w.data pc)
    (hwrites : ∀ t' i j, (t', i, j) ∈ writes ↔
      if t' = t then Done b w.data i j pc else (t', i, j) ∈ s.writes)
    (honce : (writes.map Prod.snd).Nodup)
    (hresult : ∀ t' i j, (t', i, j) ∈ writes → result i j = dot a b i j a.col) :
    Invariant a b numThreads
      { s with
        workers := Function.update s.workers t (some ⟨w.data, pc⟩)
        result := result
        writes := writes } := by
  refine ⟨h.main, ?_, ?_, ?_, ?_, honce, hresult⟩
  · intro t'
    by_cases htt : t' = t
    · subst htt
      simp only [Function.update_self, Option.some.injEq, exists_eq', true_iff]
      exact (h.created t').mp ⟨w, hw⟩
    · simp only [Function.update_of_ne htt]
      exact h.created t'
  · intro t' w' hw'
    by_cases htt : t' = t
    · subst htt
      simp only [Function.update_self, Option.some.injEq] at hw'
      subst hw'
      exact ⟨(h.worker t' w hw).1, hok⟩
    · simp only [Function.update_of_ne htt] at hw'
      exact h.worker t' w' hw'
  · intro t' ht'
    obtain ⟨data, hexited⟩ := h.joined t' ht'
    have htt : t' ≠ t := by
      rintro rfl
      rw [hw, Option.some.injEq] at hexited
      exact hactive (congrArg Worker.pc hexited)
    exact ⟨data, by simpa only [Function.update_of_ne htt] using hexited⟩
  · intro t' i j
    rw [hwrites]
    by_cases htt : t' = t
    · subst htt
      simp only [if_true, Function.update_self, Option.some.injEq, exists_eq_left']
    · simp only [htt, if_false, Function.update_of_ne htt]
      exact h.writes t' i j

theorem Invariant.silent {s : State α} (h : Invariant a b numThreads s) {t : Nat}
    {w : Worker α} (hw : s.workers t = some w) {pc : WorkerPc α}
    (hstep : multiplyRows a b w.data w.pc = some (pc, none)) :
    Invariant a b numThreads
      { s with workers := Function.update s.workers t (some ⟨w.data, pc⟩) } := by
  obtain ⟨hok, hdone⟩ := multiplyRows_silent (h.worker t w hw).2 hstep
  refine h.advance hw (multiplyRows_active hstep) hok ?_ h.once h.result
  intro t' i j
  by_cases htt : t' = t
  · subst htt
    simp only [if_true, hdone, h.writes, hw, Option.some.injEq, exists_eq_left']
  · simp only [htt, if_false]

theorem Invariant.write {s : State α} (h : Invariant a b numThreads s) {t : Nat}
    {w : Worker α} (hw : s.workers t = some w) {pc : WorkerPc α} {i j : Nat} {sum : α}
    (hstep : multiplyRows a b w.data w.pc = some (pc, some (i, j, sum))) :
    Invariant a b numThreads
      { s with
        workers := Function.update s.workers t (some ⟨w.data, pc⟩)
        result := setCell s.result i j sum
        writes := (t, i, j) :: s.writes } := by
  obtain ⟨hdata, hok⟩ := h.worker t w hw
  obtain ⟨hok', hsum, hlow, hhigh, hcol, hnew, hdone⟩ := multiplyRows_write hok hstep
  refine h.advance hw (multiplyRows_active hstep) hok' ?_ ?_ ?_
  · intro t' i' j'
    by_cases htt : t' = t
    · subst htt
      simp only [List.mem_cons, Prod.mk.injEq, true_and, if_true, hdone, h.writes, hw,
        Option.some.injEq, exists_eq_left']
      exact or_comm
    · simp only [List.mem_cons, Prod.mk.injEq, htt, false_and, false_or, if_false]
  · rw [List.map_cons, List.nodup_cons]
    refine ⟨?_, h.once⟩
    -- Another writer of this cell would own the same row.
    intro hmem
    obtain ⟨⟨t', i', j'⟩, hold, heq⟩ := List.mem_map.mp hmem
    simp only [Prod.mk.injEq] at heq
    obtain ⟨rfl, rfl⟩ := heq
    obtain ⟨w', hw', hdone'⟩ := (h.writes t' i' j').mp hold
    obtain ⟨hdata', hok''⟩ := h.worker t' w' hw'
    have hrange := done_range hok'' hdone'
    rw [hdata'] at hrange
    rw [hdata] at hlow hhigh
    have htt : t' = t := row_owner_unique hrange ⟨hlow, hhigh⟩
    subst htt
    rw [hw, Option.some.injEq] at hw'
    subst hw'
    exact hnew hdone'
  · intro t' i' j' hmem
    by_cases hcell : i' = i ∧ j' = j
    · obtain ⟨rfl, rfl⟩ := hcell
      simp only [setCell_same, hsum]
    · simp only [setCell_other s.result sum hcell]
      cases List.mem_cons.mp hmem with
      | inl heq =>
          simp only [Prod.mk.injEq] at heq
          exact absurd heq.2 hcell
      | inr hold =>
          exact h.result t' i' j' hold

theorem Invariant.step (hn : 1 ≤ numThreads) (s : State α) (mover : Mover) (t : State α)
    (h : Invariant a b numThreads s) (hstep : step a b numThreads s mover = some t) :
    Invariant a b numThreads t := by
  cases mover with
  | main => exact h.mainStep hn hstep
  | worker n =>
      cases hw : s.workers n with
      | none => simp [MatrixProduct.step, hw] at hstep
      | some w =>
          cases hmove : multiplyRows a b w.data w.pc with
          | none => simp [MatrixProduct.step, hw, hmove] at hstep
          | some outcome =>
              obtain ⟨pc, cell⟩ := outcome
              cases cell with
              | none =>
                  simp only [MatrixProduct.step, hw, hmove, Option.some.injEq] at hstep
                  subst hstep
                  exact h.silent hw hmove
              | some cell =>
                  obtain ⟨i, j, sum⟩ := cell
                  simp only [MatrixProduct.step, hw, hmove, Option.some.injEq] at hstep
                  subst hstep
                  exact h.write hw hmove

def stepsInRow (a b : MatrixT α) (j : Nat) : Nat := 1 + (b.col - j) * (a.col + 2)

def stepsInRows (a b : MatrixT α) (i endRow : Nat) : Nat :=
  1 + (endRow - i) * (1 + stepsInRow a b 0)

def stepsLeft (a b : MatrixT α) (data : ThreadData) : WorkerPc α → Nat
  | .rows i => stepsInRows a b i data.endRow
  | .cols i j => stepsInRow a b j + stepsInRows a b (i + 1) data.endRow
  | .terms i j k _ =>
      a.col - k + 1 + stepsInRow a b (j + 1) + stepsInRows a b (i + 1) data.endRow
  | .exited => 0

omit [Zero α] [Add α] [Mul α] in
theorem stepsInRow_succ {j : Nat} (h : j < b.col) :
    stepsInRow a b j = stepsInRow a b (j + 1) + (a.col + 2) := by
  have hleft : b.col - j = b.col - (j + 1) + 1 := by omega
  simp only [stepsInRow, hleft, Nat.succ_mul]
  omega

omit [Zero α] [Add α] [Mul α] in
theorem stepsInRows_succ {i endRow : Nat} (h : i < endRow) :
    stepsInRows a b i endRow = stepsInRows a b (i + 1) endRow + (1 + stepsInRow a b 0) := by
  have hleft : endRow - i = endRow - (i + 1) + 1 := by omega
  simp only [stepsInRows, hleft, Nat.succ_mul]
  omega

/-- A worker that has not exited can move, and each move is one step less. -/
theorem multiplyRows_progress {data : ThreadData} {pc : WorkerPc α}
    (hok : WorkerOk a b data pc) (hactive : pc ≠ .exited) :
    ∃ next, multiplyRows a b data pc = some next ∧
      stepsLeft a b data next.1 + 1 = stepsLeft a b data pc := by
  cases pc with
  | exited => exact absurd rfl hactive
  | rows i =>
      by_cases hi : i < data.endRow
      · refine ⟨(.cols i 0, none), by simp [multiplyRows, hi], ?_⟩
        simp only [stepsLeft, stepsInRows_succ hi]
        omega
      · refine ⟨(.exited, none), by simp [multiplyRows, hi], ?_⟩
        simp [stepsLeft, stepsInRows, show data.endRow - i = 0 by omega]
  | cols i j =>
      by_cases hj : j < b.col
      · refine ⟨(.terms i j 0 0, none), by simp [multiplyRows, hj], ?_⟩
        simp only [stepsLeft, stepsInRow_succ hj]
        omega
      · refine ⟨(.rows (i + 1), none), by simp [multiplyRows, hj], ?_⟩
        simp only [stepsLeft, stepsInRow, show b.col - j = 0 by omega]
        omega
  | terms i j k sum =>
      by_cases hk : k < a.col
      · refine ⟨(.terms i j (k + 1) (sum + a.data i k * b.data k j), none),
          by simp [multiplyRows, hk], ?_⟩
        simp only [stepsLeft]
        omega
      · refine ⟨(.cols i (j + 1), some (i, j, sum)), by simp [multiplyRows, hk], ?_⟩
        simp only [stepsLeft]
        omega

def workerLeft (a b : MatrixT α) (numThreads : Nat) (s : State α) (t : Nat) : Nat :=
  match s.workers t with
  | some w => stepsLeft a b w.data w.pc
  | none =>
      stepsInRows a b (rowsBefore a.row numThreads t) (rowsBefore a.row numThreads (t + 1))

def mainLeft (numThreads : Nat) : MainPc → Nat
  | .entry => 2 * numThreads + 3
  | .creating i _ => 2 * numThreads - i + 2
  | .joining i => numThreads - i + 1
  | .returnedNull | .returned => 0

def measure (a b : MatrixT α) (numThreads : Nat) (s : State α) : Nat :=
  mainLeft numThreads s.main + ∑ t ∈ Finset.range numThreads, workerLeft a b numThreads s t

theorem sum_decreases {n t : Nat} {f g : Nat → Nat} (ht : t < n) (hless : f t + 1 = g t)
    (same : ∀ u, u ≠ t → f u = g u) :
    ∑ u ∈ Finset.range n, f u < ∑ u ∈ Finset.range n, g u := by
  apply Finset.sum_lt_sum
  · intro u _
    by_cases hut : u = t
    · rw [hut]
      omega
    · exact Nat.le_of_eq (same u hut)
  · exact ⟨t, Finset.mem_range.mpr ht, by omega⟩

theorem Invariant.worker_measure {s : State α} (h : Invariant a b numThreads s) {t : Nat}
    {u : State α} (hstep : MatrixProduct.step a b numThreads s (.worker t) = some u) :
    measure a b numThreads u < measure a b numThreads s := by
  cases hw : s.workers t with
  | none => simp [MatrixProduct.step, hw] at hstep
  | some w =>
      cases hmove : multiplyRows a b w.data w.pc with
      | none => simp [MatrixProduct.step, hw, hmove] at hstep
      | some outcome =>
          obtain ⟨next, hnext, hless⟩ :=
            multiplyRows_progress (h.worker t w hw).2 (multiplyRows_active hmove)
          rw [hmove, Option.some.injEq] at hnext
          subst hnext
          have ht : t < numThreads := by
            have hcreated := (h.created t).mp ⟨w, hw⟩
            have hmain := h.main
            cases hpc : s.main <;> rw [hpc] at hcreated hmain <;>
              simp only [MainPc.created, MainOk] at hcreated hmain <;> omega
          have hu : u.main = s.main ∧
              u.workers = Function.update s.workers t (some ⟨w.data, outcome.1⟩) := by
            obtain ⟨pc, cell⟩ := outcome
            cases cell with
            | none =>
                simp only [MatrixProduct.step, hw, hmove, Option.some.injEq] at hstep
                subst hstep
                exact ⟨rfl, rfl⟩
            | some cell =>
                obtain ⟨i, j, sum⟩ := cell
                simp only [MatrixProduct.step, hw, hmove, Option.some.injEq] at hstep
                subst hstep
                exact ⟨rfl, rfl⟩
          simp only [measure, hu.1]
          apply Nat.add_lt_add_left
          apply sum_decreases ht
          · simpa only [workerLeft, hu.2, Function.update_self, hw] using hless
          · intro v hv
            simp only [workerLeft, hu.2, Function.update_of_ne hv]

theorem Invariant.main_measure {s u : State α} (h : Invariant a b numThreads s)
    (hstep : MatrixProduct.mainStep a b numThreads s = some u) :
    measure a b numThreads u < measure a b numThreads s := by
  have hmain := h.main
  cases hpc : s.main with
  | entry =>
      simp only [MatrixProduct.mainStep, hpc] at hstep
      split at hstep <;> simp only [Option.some.injEq] at hstep <;> subst hstep <;>
        simp only [measure, workerLeft, hpc, mainLeft] <;> omega
  | creating i startRow =>
      rw [hpc] at hmain
      obtain ⟨_, hi, hstart⟩ := hmain
      simp only [MatrixProduct.mainStep, hpc] at hstep
      split at hstep <;> simp only [Option.some.injEq] at hstep <;> subst hstep
      · rename_i hlt
        have hfree : s.workers i = none := by
          cases hw : s.workers i with
          | none => rfl
          | some w =>
              have := (h.created i).mp ⟨w, hw⟩
              rw [hpc] at this
              simp [MainPc.created] at this
        have hsame : ∀ t, workerLeft a b numThreads
            { s with
              main := .creating (i + 1) (endRow a numThreads i startRow)
              workers := Function.update s.workers i
                (some ⟨⟨startRow, endRow a numThreads i startRow⟩, .rows startRow⟩) } t =
            workerLeft a b numThreads s t := by
          intro t
          by_cases hti : t = i
          · subst hti
            simp only [workerLeft, Function.update_self, hfree, stepsLeft]
            rw [hstart, endRow_eq a hlt]
          · simp only [workerLeft, Function.update_of_ne hti]
        simp only [measure, hsame, hpc, mainLeft]
        omega
      · simp only [measure, workerLeft, hpc, mainLeft]
        omega
  | joining i =>
      simp only [MatrixProduct.mainStep, hpc] at hstep
      split at hstep
      · split at hstep <;> simp only [Option.some.injEq, reduceCtorEq] at hstep
        subst hstep
        simp only [measure, workerLeft, hpc, mainLeft]
        omega
      · simp only [Option.some.injEq] at hstep
        subst hstep
        simp only [measure, workerLeft, hpc, mainLeft]
        omega
  | returnedNull => simp [MatrixProduct.mainStep, hpc] at hstep
  | returned => simp [MatrixProduct.mainStep, hpc] at hstep

/-- Until the call has returned, main or a worker can take a step. -/
theorem Invariant.progress {s : State α} (h : Invariant a b numThreads s)
    (hrunning : s.returns a b = none) :
    ∃ mover t, MatrixProduct.step a b numThreads s mover = some t := by
  have hmain := h.main
  cases hpc : s.main with
  | entry =>
      by_cases hshape : a.col = b.row
      · exact ⟨.main, _, by simp [MatrixProduct.step, MatrixProduct.mainStep, hpc, hshape]; rfl⟩
      · exact ⟨.main, _, by simp [MatrixProduct.step, MatrixProduct.mainStep, hpc, hshape]; rfl⟩
  | creating i startRow =>
      by_cases hi : i < numThreads
      · exact ⟨.main, _, by simp [MatrixProduct.step, MatrixProduct.mainStep, hpc, hi]; rfl⟩
      · exact ⟨.main, _, by simp [MatrixProduct.step, MatrixProduct.mainStep, hpc, hi]; rfl⟩
  | joining i =>
      by_cases hi : i < numThreads
      · obtain ⟨w, hw⟩ := (h.created i).mpr (by rw [hpc]; exact hi)
        by_cases hexited : w.pc = .exited
        · obtain ⟨data, pc⟩ := w
          simp only at hexited
          subst hexited
          exact ⟨.main, _, by simp [MatrixProduct.step, MatrixProduct.mainStep, hpc, hi, hw]; rfl⟩
        · obtain ⟨⟨pc, cell⟩, hmove, _⟩ := multiplyRows_progress (h.worker i w hw).2 hexited
          cases cell with
          | none => exact ⟨.worker i, _, by simp [MatrixProduct.step, hw, hmove]; rfl⟩
          | some cell => exact ⟨.worker i, _, by simp [MatrixProduct.step, hw, hmove]; rfl⟩
      · exact ⟨.main, _, by simp [MatrixProduct.step, MatrixProduct.mainStep, hpc, hi]; rfl⟩
  | returnedNull => simp [State.returns, hpc] at hrunning
  | returned => simp [State.returns, hpc] at hrunning

theorem Invariant.measure_step {s : State α} {mover : Mover} {u : State α}
    (h : Invariant a b numThreads s) (hstep : MatrixProduct.step a b numThreads s mover = some u) :
    measure a b numThreads u < measure a b numThreads s := by
  cases mover with
  | main => exact h.main_measure hstep
  | worker t => exact h.worker_measure hstep

/-- Once all workers are joined, exactly the cells of the product were written. -/
theorem Invariant.all_written {s : State α}
    (h : Invariant a b numThreads s) (hreturned : s.main = .returned) (t i j : Nat) :
    (t, i, j) ∈ s.writes ↔
      (rowsBefore a.row numThreads t ≤ i ∧ i < rowsBefore a.row numThreads (t + 1)) ∧
        j < b.col := by
  have hjoined := h.joined
  have hcreated := h.created t
  rw [hreturned] at hjoined hcreated
  simp only [MainPc.joined, MainPc.created] at hjoined hcreated
  rw [h.writes]
  constructor
  · rintro ⟨w, hw, hdone⟩
    obtain ⟨data, hexited⟩ := hjoined t (hcreated.mp ⟨w, hw⟩)
    obtain ⟨hdata, _⟩ := h.worker t w hw
    rw [hw, Option.some.injEq] at hexited
    subst hexited
    simp only [Done] at hdone hdata
    rw [hdata] at hdone
    exact ⟨⟨hdone.1, hdone.2.1⟩, hdone.2.2⟩
  · rintro ⟨⟨hlow, hhigh⟩, hcol⟩
    have ht : t < numThreads := by
      by_contra hge
      have h1 : rowsBefore a.row numThreads t = a.row := if_neg hge
      have h2 := rowsBefore_le a.row numThreads (t + 1)
      omega
    obtain ⟨data, hexited⟩ := hjoined t ht
    obtain ⟨hdata, _⟩ := h.worker t _ hexited
    simp only at hdata
    refine ⟨_, hexited, ?_⟩
    simp only [Done, hdata]
    exact ⟨hlow, hhigh, hcol⟩

/-- Every cell of the matrix is written by exactly one worker, exactly once, and no
other cell is written. -/
def WrittenOnce (c : MatrixT α) (writes : List (Nat × Nat × Nat)) : Prop :=
  (∀ i, i < c.row → ∀ j, j < c.col →
    (∃! t, (t, i, j) ∈ writes) ∧ (writes.map Prod.snd).count (i, j) = 1) ∧
  ∀ t i j, (t, i, j) ∈ writes → i < c.row ∧ j < c.col

theorem Invariant.written_once (hn : 1 ≤ numThreads) {s : State α}
    (h : Invariant a b numThreads s) (hreturned : s.main = .returned) {c : MatrixT α}
    (hrow : c.row = a.row) (hcol : c.col = b.col) : WrittenOnce c s.writes := by
  have hall := h.all_written hreturned
  constructor
  · intro i hi j hj
    obtain ⟨t, _, hrange⟩ := row_owner hn (hrow ▸ hi)
    have hmem : (t, i, j) ∈ s.writes := (hall t i j).mpr ⟨hrange, hcol ▸ hj⟩
    refine ⟨⟨t, hmem, fun t' ht' => row_owner_unique ((hall t' i j).mp ht').1 hrange⟩, ?_⟩
    exact List.count_eq_one_of_mem h.once (List.mem_map.mpr ⟨_, hmem, rfl⟩)
  · intro t i j hmem
    obtain ⟨hrange, hj⟩ := (hall t i j).mp hmem
    have := rowsBefore_le a.row numThreads (t + 1)
    exact ⟨by omega, by omega⟩

/-- What a run of the threaded product that starts from `fresh` returns. -/
def Returns (a b : MatrixT α) (numThreads : Nat) (fresh : Nat → Nat → α)
    (s : State α) (m : Option (MatrixT α)) : Prop :=
  (∃ movers, run (step a b numThreads) (initialState fresh) movers = some s) ∧
    s.returns a b = some m

/-- In every interleaving the threaded product returns what the sequential one
returns, writes each cell exactly once, and no run goes on forever or gets stuck. -/
theorem product_multi_eq_sequential (a b : MatrixT α) (numThreads : Nat)
    (hn : 1 ≤ numThreads) (fresh fresh' : Nat → Nat → α) :
    (a.col ≠ b.row →
      calculateProductMatrix fresh' a b = none ∧
      ∀ s m, Returns a b numThreads fresh s m → m = none) ∧
    (a.col = b.row →
      ∃ c, calculateProductMatrix fresh' a b = some c ∧
      ∀ s m, Returns a b numThreads fresh s m →
        ∃ r, m = some r ∧ r.row = c.row ∧ r.col = c.col ∧
          (∀ i, i < c.row → ∀ j, j < c.col → r.data i j = c.data i j) ∧
          WrittenOnce c s.writes) ∧
    ∃ bound, ∀ movers s,
      run (step a b numThreads) (initialState fresh) movers = some s →
      movers.length ≤ bound ∧
      (s.returns a b = none → ∃ mover t, step a b numThreads s mover = some t) := by
  have hinv : ∀ {movers s}, run (step a b numThreads) (initialState fresh) movers = some s →
      Invariant a b numThreads s := fun h =>
    invariant_run (Invariant.step hn) (Invariant.initial fresh) h
  refine ⟨fun hshape => ⟨(calculateProductMatrix_spec fresh' a b).1 hshape, ?_⟩,
    fun hshape => ?_, measure a b numThreads (initialState fresh), ?_⟩
  · rintro s m ⟨⟨movers, hrun⟩, hreturns⟩
    have hmain := (hinv hrun).main
    cases hpc : s.main <;> rw [hpc] at hmain <;>
      simp only [State.returns, hpc, reduceCtorEq, Option.some.injEq] at hreturns
    · exact hreturns.symm
    · exact absurd hmain hshape
  · obtain ⟨c, hcall, hrow, hcol, hcells⟩ := (calculateProductMatrix_spec fresh' a b).2 hshape
    refine ⟨c, hcall, ?_⟩
    rintro s m ⟨⟨movers, hrun⟩, hreturns⟩
    have h := hinv hrun
    have hmain := h.main
    cases hpc : s.main <;> rw [hpc] at hmain <;>
      simp only [State.returns, hpc, reduceCtorEq, Option.some.injEq] at hreturns
    · exact absurd hshape hmain
    · refine ⟨_, hreturns.symm, hrow.symm, hcol.symm, ?_, h.written_once hn hpc hrow hcol⟩
      intro i hi j hj
      obtain ⟨t, _, hrange⟩ := row_owner hn (hrow ▸ hi)
      rw [hcells i (hrow ▸ hi) j (hcol ▸ hj)]
      exact h.result t i j ((h.all_written hpc t i j).mpr ⟨hrange, hcol ▸ hj⟩)
  · intro movers s hrun
    have hlen := run_length_le (Invariant.step hn) (fun s mover u h hs => h.measure_step hs)
      (Invariant.initial (a := a) (b := b) fresh) hrun
    exact ⟨by omega, (hinv hrun).progress⟩

def threeRows : MatrixT Nat := ⟨3, 2, fun i j => 2 * i + j + 1⟩

def twoRows : MatrixT Nat := ⟨2, 2, fun i j => i + 3 * j⟩

def takingTurns : List Mover :=
  List.replicate 4 .main ++ (List.replicate 11 [.worker 0, .worker 1]).flatten ++
    List.replicate 10 (.worker 1) ++ List.replicate 3 .main

theorem product_multi_two_threads :
    ∃ s r c, calculateProductMatrix (fun _ _ => 5) threeRows twoRows = some c ∧
      Returns threeRows twoRows 2 (fun _ _ => 7) s (some r) ∧
      (∀ i < 3, ∀ j < 2, r.data i j = c.data i j) ∧
      (List.range 3).map (fun i => (c.data i 0, c.data i 1)) = [(2, 11), (4, 25), (6, 39)] ∧
      WrittenOnce c s.writes := by
  have hruns : ((run (step threeRows twoRows 2) (initialState fun _ _ => 7) takingTurns).map
      fun s => (s.returns threeRows twoRows).isSome) = some true := by
    decide +kernel
  obtain ⟨s, hs, hreturned⟩ := Option.map_eq_some_iff.mp hruns
  obtain ⟨m, hm⟩ := Option.isSome_iff_exists.mp hreturned
  obtain ⟨_, hequal, _⟩ :=
    product_multi_eq_sequential threeRows twoRows 2 (by decide) (fun _ _ => 7) (fun _ _ => 5)
  obtain ⟨c, hcall, hall⟩ := hequal rfl
  obtain ⟨r, rfl, _, _, hcells, honce⟩ := hall s m ⟨⟨_, hs⟩, hm⟩
  have hc : (calculateProductMatrix (fun _ _ => 5) threeRows twoRows).map
      (fun c => (c.row, c.col, (List.range 3).map fun i => (c.data i 0, c.data i 1))) =
      some (3, 2, [(2, 11), (4, 25), (6, 39)]) := by decide +kernel
  rw [hcall, Option.map_some, Option.some.injEq, Prod.mk.injEq, Prod.mk.injEq] at hc
  obtain ⟨hrow, hcol, hdata⟩ := hc
  exact ⟨s, r, c, hcall, ⟨⟨_, hs⟩, hm⟩,
    fun i hi j hj => hcells i (by omega) j (by omega), hdata, honce⟩

end LinuxTraining.MatrixProduct
