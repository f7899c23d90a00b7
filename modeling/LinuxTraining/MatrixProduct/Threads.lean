import LinuxTraining.MatrixProduct.Sequential
import LinuxTraining.Library.Execution
import Mathlib.Logic.Function.Basic

/-!
`calculate_product_matrix_multi` of `matrix.c`: main creates and joins the
workers while they run `multiply_rows` at their own pace. A step is one turn of
a loop head or one assignment; `writes` records which worker wrote which cell.
-/
namespace LinuxTraining.MatrixProduct
open Execution

variable {α : Type*}

/-- `thread_data_t`, less the three matrices that all workers share. -/
structure ThreadData where
  startRow : Nat
  endRow : Nat

/-- Where a worker stands in `multiply_rows`: at the head of one of its three
loops, or after `pthread_exit`. -/
inductive WorkerPc (α : Type*) where
  | rows (i : Nat)
  | cols (i j : Nat)
  | terms (i j k : Nat) (sum : α)
  | exited

structure Worker (α : Type*) where
  data : ThreadData
  pc : WorkerPc α

/-- Where main stands: before the shape test, in the creating loop, in the joining
loop, or after the return of `NULL` or of the result. -/
inductive MainPc where
  | entry
  | creating (i startRow : Nat)
  | joining (i : Nat)
  | returnedNull
  | returned

structure State (α : Type*) where
  main : MainPc
  workers : Nat → Option (Worker α)
  result : Nat → Nat → α
  writes : List (Nat × Nat × Nat)

inductive Mover where
  | main
  | worker (t : Nat)

section Program
variable [Zero α] [Add α] [Mul α] (a b : MatrixT α) (numThreads : Nat)

def initialState (fresh : Nat → Nat → α) : State α := ⟨.entry, fun _ => none, fresh, []⟩

/-- The row after the last one of worker `i`: the last worker takes the remaining
rows. -/
def endRow (i startRow : Nat) : Nat :=
  let rowsPerThread := a.row / numThreads
  let remainingRows := a.row % numThreads
  if i = numThreads - 1 then startRow + rowsPerThread + remainingRows
  else startRow + rowsPerThread

def mainStep (s : State α) : Option (State α) :=
  match s.main with
  | .entry =>
      if a.col ≠ b.row then some { s with main := .returnedNull }
      else some { s with main := .creating 0 0 }
  | .creating i startRow =>
      if i < numThreads then
        let stop := endRow a numThreads i startRow
        some { s with
          main := .creating (i + 1) stop
          workers := Function.update s.workers i (some ⟨⟨startRow, stop⟩, .rows startRow⟩) }
      else some { s with main := .joining 0 }
  | .joining i =>
      if i < numThreads then
        match s.workers i with
        | some ⟨_, .exited⟩ => some { s with main := .joining (i + 1) }
        | _ => none
      else some { s with main := .returned }
  | .returnedNull | .returned => none

/-- One step of `multiply_rows`, with the cell it writes, if any. -/
def multiplyRows (data : ThreadData) : WorkerPc α → Option (WorkerPc α × Option (Nat × Nat × α))
  | .rows i => if i < data.endRow then some (.cols i 0, none) else some (.exited, none)
  | .cols i j => if j < b.col then some (.terms i j 0 0, none) else some (.rows (i + 1), none)
  | .terms i j k sum =>
      if k < a.col then some (.terms i j (k + 1) (sum + a.data i k * b.data k j), none)
      else some (.cols i (j + 1), some (i, j, sum))
  | .exited => none

def step (s : State α) : Mover → Option (State α)
  | .main => mainStep a b numThreads s
  | .worker t =>
      match s.workers t with
      | none => none
      | some w =>
          match multiplyRows a b w.data w.pc with
          | none => none
          | some (pc, none) =>
              some { s with workers := Function.update s.workers t (some ⟨w.data, pc⟩) }
          | some (pc, some (i, j, sum)) =>
              some { s with
                workers := Function.update s.workers t (some ⟨w.data, pc⟩)
                result := setCell s.result i j sum
                writes := (t, i, j) :: s.writes }

def State.returns (s : State α) : Option (Option (MatrixT α)) :=
  match s.main with
  | .returnedNull => some none
  | .returned => some (some { initMatrix s.result a.row b.col with data := s.result })
  | _ => none

end Program

def rowsBefore (rows numThreads t : Nat) : Nat :=
  if t < numThreads then t * (rows / numThreads) else rows

theorem rowsBefore_zero {rows numThreads : Nat} (h : 1 ≤ numThreads) :
    rowsBefore rows numThreads 0 = 0 := by
  simp [rowsBefore, show 0 < numThreads by omega]

theorem endRow_eq (a : MatrixT α) {numThreads t : Nat} (ht : t < numThreads) :
    endRow a numThreads t (rowsBefore a.row numThreads t) =
      rowsBefore a.row numThreads (t + 1) := by
  have hdiv := Nat.div_add_mod a.row numThreads
  by_cases hlast : t = numThreads - 1
  · have hn : numThreads = t + 1 := by omega
    subst hn
    simp only [endRow, rowsBefore, Nat.add_sub_cancel, if_true, ht, Nat.lt_irrefl, if_false]
    rw [Nat.succ_mul] at hdiv
    exact hdiv
  · simp only [endRow, rowsBefore, hlast, if_false, ht, if_true, show t + 1 < numThreads by omega]
    rw [Nat.succ_mul]

theorem rowsBefore_mono (rows numThreads : Nat) {t t' : Nat} (h : t ≤ t') :
    rowsBefore rows numThreads t ≤ rowsBefore rows numThreads t' := by
  unfold rowsBefore
  split <;> split
  · exact Nat.mul_le_mul_right _ h
  · have hle := Nat.mul_le_mul_right (rows / numThreads) (show t ≤ numThreads by omega)
    exact Nat.le_trans hle (Nat.mul_div_le rows numThreads)
  · omega
  · exact Nat.le_refl _

theorem rowsBefore_le (rows numThreads t : Nat) : rowsBefore rows numThreads t ≤ rows := by
  have h := rowsBefore_mono rows numThreads
    (show t ≤ max t numThreads by omega)
  have hend : rowsBefore rows numThreads (max t numThreads) = rows :=
    if_neg (by omega)
  omega

/-- The ranges tile the rows: every row has a worker. -/
theorem row_owner {rows numThreads i : Nat} (hn : 1 ≤ numThreads) (hi : i < rows) :
    ∃ t, t < numThreads ∧ rowsBefore rows numThreads t ≤ i ∧
      i < rowsBefore rows numThreads (t + 1) := by
  have hfind : ∀ n, i < rowsBefore rows numThreads n →
      ∃ t, t < n ∧ rowsBefore rows numThreads t ≤ i ∧
        i < rowsBefore rows numThreads (t + 1) := by
    intro n
    induction n with
    | zero =>
        rw [rowsBefore_zero hn]
        omega
    | succ n ih =>
        intro hlt
        by_cases hbelow : i < rowsBefore rows numThreads n
        · obtain ⟨t, ht, hrange⟩ := ih hbelow
          exact ⟨t, by omega, hrange⟩
        · exact ⟨n, by omega, by omega, hlt⟩
  have hall : rowsBefore rows numThreads numThreads = rows := if_neg (by omega)
  exact hfind numThreads (by rwa [hall])

/-- No row has two workers. -/
theorem row_owner_unique {rows numThreads i t t' : Nat}
    (h : rowsBefore rows numThreads t ≤ i ∧ i < rowsBefore rows numThreads (t + 1))
    (h' : rowsBefore rows numThreads t' ≤ i ∧ i < rowsBefore rows numThreads (t' + 1)) :
    t = t' := by
  rcases Nat.lt_trichotomy t t' with hlt | heq | hgt
  · have := rowsBefore_mono rows numThreads (show t + 1 ≤ t' from hlt)
    omega
  · exact heq
  · have := rowsBefore_mono rows numThreads (show t' + 1 ≤ t from hgt)
    omega

end LinuxTraining.MatrixProduct
