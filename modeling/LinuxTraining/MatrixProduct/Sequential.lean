import Mathlib.Algebra.Group.Defs
import Mathlib.Data.List.Basic
import Mathlib.Tactic.Common

/-!
`calculate_product_matrix` of `matrix.c`. Elements come from any type with the
three operations that the code uses; no law about them is assumed, so equal
results are equal to the last bit. `fresh` is what `malloc` leaves in the cells
of a new matrix.
-/
namespace LinuxTraining.MatrixProduct

structure MatrixT (α : Type*) where
  row : Nat
  col : Nat
  data : Nat → Nat → α

variable {α : Type*}

def setCell (data : Nat → Nat → α) (i j : Nat) (v : α) : Nat → Nat → α := fun i' j' =>
  if i' = i ∧ j' = j then v else data i' j'

def initMatrix (fresh : Nat → Nat → α) (row col : Nat) : MatrixT α := ⟨row, col, fresh⟩

/-- `true` says that the shapes do not go together: for an addition when `flag` is
set, for a product otherwise. -/
def checkRowColMatrix (rowA colA rowB colB : Nat) (flag : Bool) : Bool :=
  if flag then rowA != rowB || colA != colB else colA != rowB

variable [Zero α] [Add α] [Mul α]

def accumulateCell (a b : MatrixT α) (i j : Nat) (data : Nat → Nat → α) : Nat → Nat → α :=
  (List.range a.col).foldl
    (fun data k => setCell data i j (data i j + a.data i k * b.data k j)) data

def productRow (a b : MatrixT α) (i : Nat) (data : Nat → Nat → α) : Nat → Nat → α :=
  (List.range b.col).foldl
    (fun data j => accumulateCell a b i j (setCell data i j 0)) data

def calculateProductMatrix (fresh : Nat → Nat → α) (a b : MatrixT α) : Option (MatrixT α) :=
  if checkRowColMatrix a.row a.col b.row b.col false then none
  else
    let product := initMatrix fresh a.row b.col
    some { product with
      data := (List.range a.row).foldl (fun data i => productRow a b i data) product.data }

def dot (a b : MatrixT α) (i j n : Nat) : α :=
  (List.range n).foldl (fun sum k => sum + a.data i k * b.data k j) 0

theorem dot_succ (a b : MatrixT α) (i j n : Nat) :
    dot a b i j (n + 1) = dot a b i j n + a.data i n * b.data n j := by
  simp [dot, List.range_succ]

omit [Zero α] [Add α] [Mul α] in
@[simp] theorem setCell_same (data : Nat → Nat → α) (i j : Nat) (v : α) :
    setCell data i j v i j = v := by
  simp [setCell]

omit [Zero α] [Add α] [Mul α] in
theorem setCell_other (data : Nat → Nat → α) {i j i' j' : Nat} (v : α)
    (h : ¬ (i' = i ∧ j' = j)) : setCell data i j v i' j' = data i' j' := by
  simp only [setCell, h, if_false]

theorem accumulateCell_spec (a b : MatrixT α) (i j : Nat) (data : Nat → Nat → α) :
    accumulateCell a b i j (setCell data i j 0) = setCell data i j (dot a b i j a.col) := by
  unfold accumulateCell
  generalize a.col = n
  induction n with
  | zero => rfl
  | succ n ih =>
      rw [List.range_succ, List.foldl_append, ih, dot_succ]
      funext i' j'
      by_cases hcell : i' = i ∧ j' = j
      · simp [setCell, hcell]
      · simp [setCell, hcell]

theorem productRow_spec (a b : MatrixT α) (i : Nat) (data : Nat → Nat → α) (i' j' : Nat) :
    productRow a b i data i' j' =
      if i' = i ∧ j' < b.col then dot a b i j' a.col else data i' j' := by
  simp only [productRow, accumulateCell_spec]
  generalize b.col = n
  induction n with
  | zero => simp
  | succ n ih =>
      rw [List.range_succ, List.foldl_append, List.foldl_cons, List.foldl_nil]
      by_cases hcell : i' = i ∧ j' = n
      · obtain ⟨rfl, rfl⟩ := hcell
        simp
      · rw [setCell_other _ _ hcell, ih]
        by_cases hrow : i' = i
        · have hcol : j' < n + 1 ↔ j' < n := by omega
          simp [hrow, hcol]
        · simp [hrow]

/-- Every cell of the product holds its sum of products, added up in order. -/
theorem calculateProductMatrix_spec (fresh : Nat → Nat → α) (a b : MatrixT α) :
    (a.col ≠ b.row → calculateProductMatrix fresh a b = none) ∧
    (a.col = b.row → ∃ c, calculateProductMatrix fresh a b = some c ∧
      c.row = a.row ∧ c.col = b.col ∧
      ∀ i, i < a.row → ∀ j, j < b.col → c.data i j = dot a b i j a.col) := by
  constructor
  · intro hshape
    simp [calculateProductMatrix, checkRowColMatrix, hshape]
  · intro hshape
    have hcall : calculateProductMatrix fresh a b = some ⟨a.row, b.col,
        (List.range a.row).foldl (fun data i => productRow a b i data) fresh⟩ := by
      simp [calculateProductMatrix, checkRowColMatrix, hshape, initMatrix]
    refine ⟨_, hcall, rfl, rfl, ?_⟩
    have hrows : ∀ n i, i < n → ∀ j, j < b.col →
        (List.range n).foldl (fun data i => productRow a b i data) fresh i j =
          dot a b i j a.col := by
      intro n
      induction n with
      | zero => omega
      | succ n ih =>
          intro i hi j hj
          rw [List.range_succ, List.foldl_append, List.foldl_cons, List.foldl_nil,
            productRow_spec]
          by_cases hin : i = n
          · rw [if_pos ⟨hin, hj⟩, hin]
          · rw [if_neg (by omega)]
            exact ih i (by omega) j hj
    exact hrows a.row

end LinuxTraining.MatrixProduct
