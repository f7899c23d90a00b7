import LinuxTraining.MatrixProduct.Interleaving
import LinuxTraining.MatrixProduct.NumInput

/-!
`main` of the matrix program, from its five prompts through both products to the clean-up.
Only the threaded product has more than one thread; all else is one step before it and one
after it. A `NULL` matrix is `none`, and a step that cannot be taken is a fault.
-/
namespace LinuxTraining.MatrixProduct
open Execution

variable {α : Type}

inductive Fault where
  | conversion
  | nullPointer
  | noThreads
  | divisionByZero

/-- What the system grants: the memory of the four matrices, and for the threaded product
the stack of its arrays and every thread. -/
structure Host where
  matrixA : Bool
  matrixB : Bool
  product : Bool
  productMulti : Bool
  threads : Bool

structure Typed where
  rowA : List (List Char)
  colA : List (List Char)
  rowB : List (List Char)
  colB : List (List Char)
  numThreads : List (List Char)

structure Sizes where
  rowA : Nat
  colA : Nat
  rowB : Nat
  colB : Nat
  numThreads : Nat
  deriving DecidableEq

def inputNumberOfArray (row col : List (List Char)) : Option (Nat × Nat) := do
  let row ← validateNumInput row
  let col ← validateNumInput col
  return (row, col)

def Typed.sizes (typed : Typed) : Option Sizes := do
  let (rowA, colA) ← inputNumberOfArray typed.rowA typed.colA
  let (rowB, colB) ← inputNumberOfArray typed.rowB typed.colB
  let numThreads ← validateNumInput typed.numThreads
  return ⟨rowA, colA, rowB, colB, numThreads⟩

def assign (input : Nat) : Except Fault Nat :=
  match toInt input with
  | some value => .ok value
  | none => .error .conversion

/-- `init_matrix`; without its memory the first cell that is written is none. -/
def newMatrix (granted : Bool) (fresh : Nat → Nat → α) (row col : Nat) :
    Except Fault (MatrixT α) :=
  if granted then .ok (initMatrix fresh row col) else .error .nullPointer

def createDataMatrix (rand : Nat → Nat → α) (matrix : MatrixT α) : MatrixT α :=
  { matrix with
    data := fun i j => if i < matrix.row ∧ j < matrix.col then rand i j else matrix.data i j }

abbrev Printed (α : Type) := List (List α)

def printMatrix (matrix : Option (MatrixT α)) : Except Fault (Printed α) :=
  match matrix with
  | none => .error .nullPointer
  | some m =>
      .ok ((List.range m.row).map fun i => (List.range m.col).map fun j => m.data i j)

def freeMatrix (matrix : Option (MatrixT α)) : Except Fault Unit :=
  match matrix with
  | none => .error .nullPointer
  | some _ => .ok ()

structure Prepared (α : Type) where
  a : MatrixT α
  b : MatrixT α
  numThreads : Nat
  product : Option (MatrixT α)
  printed : List (Printed α)

structure Cells (α : Type) where
  randA : Nat → Nat → α
  randB : Nat → Nat → α
  fresh : Nat → Nat → α

def printProduct (product : Option (MatrixT α)) : Except Fault (List (Printed α)) :=
  match product with
  | none => .ok []
  | some m => (printMatrix (some m)).map fun printed => [printed]

def cleanUp (p : Prepared α) (productMulti : Option (MatrixT α)) :
    Except Fault (List (Printed α)) := do
  let printed ← printProduct productMulti
  freeMatrix (some p.a)
  freeMatrix (some p.b)
  freeMatrix p.product
  return p.printed ++ printed

section Program
variable [Zero α] [Add α] [Mul α]

def normalProduct (granted : Bool) (fresh : Nat → Nat → α) (a b : MatrixT α) :
    Except Fault (Option (MatrixT α) × List (Printed α)) :=
  let product := calculateProductMatrix fresh a b
  if product.isSome && !granted then .error .nullPointer
  else (printProduct product).map fun printed => (product, printed)

def prepare (host : Host) (cells : Cells α) (sizes : Sizes) : Except Fault (Prepared α) := do
  let rowA ← assign sizes.rowA
  let colA ← assign sizes.colA
  let rowB ← assign sizes.rowB
  let colB ← assign sizes.colB
  let numThreads ← assign sizes.numThreads
  let a ← newMatrix host.matrixA cells.fresh rowA colA
  let b ← newMatrix host.matrixB cells.fresh rowB colB
  let a := createDataMatrix cells.randA a
  let b := createDataMatrix cells.randB b
  let printedA ← printMatrix (some a)
  let printedB ← printMatrix (some b)
  let (product, printed) ← normalProduct host.product cells.fresh a b
  return ⟨a, b, numThreads, product, [printedA, printedB] ++ printed⟩

/-- What must hold before the threaded product creates its first thread. Arrays without
elements do no harm, but the rows cannot be divided among no threads. -/
def enterMulti (host : Host) (p : Prepared α) : Except Fault Unit :=
  if !host.threads then .error .noThreads
  else if p.a.col ≠ p.b.row then .ok ()
  else if !host.productMulti then .error .nullPointer
  else if p.numThreads = 0 then .error .divisionByZero
  else .ok ()

/-- Where the program stands; in the end it has returned from `main` or met a fault. -/
inductive Program (α : Type) where
  | start
  | multiplying (p : Prepared α) (s : State α)
  | ended (result : Except Fault (List (Printed α)))

/-- At its start the program waits until all its prompts are answered. -/
def programStep (host : Host) (cells : Cells α) (typed : Typed) :
    Program α → Mover → Option (Program α)
  | .start, .main =>
      match typed.sizes with
      | none => none
      | some sizes =>
          match prepare host cells sizes with
          | .error fault => some (.ended (.error fault))
          | .ok p =>
              match enterMulti host p with
              | .error fault => some (.ended (.error fault))
              | .ok () => some (.multiplying p (initialState cells.fresh))
  | .start, .worker _ => none
  | .multiplying p s, mover =>
      match s.returns p.a p.b, mover with
      | some product, .main => some (.ended (cleanUp p product))
      | some _, .worker _ => none
      | none, mover => (step p.a p.b p.numThreads s mover).map (.multiplying p)
  | .ended _, _ => none

/-- `main` gets to its `return` statement, whatever the workers do. -/
def RunsToReturn (host : Host) (cells : Cells α) (typed : Typed) : Prop :=
  RunsTo (programStep host cells typed) (fun q => ∃ printed, q = .ended (.ok printed)) .start

end Program

def Sizes.Ints (sizes : Sizes) : Prop :=
  sizes.rowA < 2 ^ 31 ∧ sizes.colA < 2 ^ 31 ∧ sizes.rowB < 2 ^ 31 ∧ sizes.colB < 2 ^ 31 ∧
    sizes.numThreads < 2 ^ 31

def Host.Grants (host : Host) : Prop :=
  host.matrixA ∧ host.matrixB ∧ host.product ∧ host.productMulti ∧ host.threads

instance (sizes : Sizes) : Decidable sizes.Ints := inferInstanceAs (Decidable (_ ∧ _))

instance (host : Host) : Decidable host.Grants := inferInstanceAs (Decidable (_ ∧ _))

variable {host : Host} {cells : Cells α} {typed : Typed} {sizes : Sizes} {p : Prepared α}

theorem bind_ok {β γ : Type} {x : Except Fault β} {f : β → Except Fault γ} {r : γ}
    (h : x >>= f = .ok r) : ∃ v, x = .ok v ∧ f v = .ok r := by
  cases x with
  | error fault => cases h
  | ok v => exact ⟨v, rfl, h⟩

theorem assign_ok {input value : Nat} (h : assign input = .ok value) :
    input < 2 ^ 31 ∧ value = input := by
  by_cases hint : input < 2 ^ 31
  · simp only [assign, toInt, hint, if_true, Except.ok.injEq] at h
    exact ⟨hint, h.symm⟩
  · simp only [assign, toInt, hint, if_false, reduceCtorEq] at h

theorem assign_int {input : Nat} (h : input < 2 ^ 31) : assign input = .ok input := by
  simp only [assign, toInt, h, if_true]

theorem newMatrix_ok {granted : Bool} {fresh : Nat → Nat → α} {row col : Nat} {m : MatrixT α}
    (h : newMatrix granted fresh row col = .ok m) :
    granted = true ∧ m.row = row ∧ m.col = col := by
  cases granted with
  | false => cases h
  | true =>
      cases h
      exact ⟨rfl, rfl, rfl⟩

/-- The clean-up needs the normal product, too. -/
theorem cleanUp_ok {productMulti : Option (MatrixT α)} {printed : List (Printed α)}
    (h : cleanUp p productMulti = .ok printed) : p.product ≠ none := by
  intro hnull
  obtain ⟨_, _, h⟩ := bind_ok h
  obtain ⟨_, _, h⟩ := bind_ok h
  obtain ⟨_, _, h⟩ := bind_ok h
  obtain ⟨_, hfree, _⟩ := bind_ok h
  rw [hnull] at hfree
  cases hfree

theorem cleanUp_product (productMulti : Option (MatrixT α)) {product : MatrixT α}
    (h : p.product = some product) : ∃ printed, cleanUp p productMulti = .ok printed := by
  cases productMulti with
  | none => exact ⟨p.printed ++ [], by rw [cleanUp, h]; rfl⟩
  | some c => exact ⟨_, by rw [cleanUp, h]; rfl⟩

section Program
variable [Zero α] [Add α] [Mul α]

theorem normalProduct_ok {granted : Bool} {fresh : Nat → Nat → α} {a b : MatrixT α}
    {r : Option (MatrixT α) × List (Printed α)} (h : normalProduct granted fresh a b = .ok r) :
    r.1 = calculateProductMatrix fresh a b ∧ (a.col = b.row → granted = true) := by
  unfold normalProduct at h
  by_cases hshape : a.col = b.row
  · obtain ⟨c, hcall, -⟩ := (calculateProductMatrix_spec fresh a b).2 hshape
    rw [hcall] at h ⊢
    cases granted with
    | false => cases h
    | true =>
        cases h
        exact ⟨rfl, fun _ => rfl⟩
  · rw [(calculateProductMatrix_spec fresh a b).1 hshape] at h ⊢
    cases h
    exact ⟨rfl, fun hsame => absurd hsame hshape⟩

theorem prepare_ok (h : prepare host cells sizes = .ok p) :
    sizes.Ints ∧ (host.matrixA ∧ host.matrixB ∧ (sizes.colA = sizes.rowB → host.product)) ∧
    p.a.col = sizes.colA ∧ p.b.row = sizes.rowB ∧ p.numThreads = sizes.numThreads ∧
    p.product = calculateProductMatrix cells.fresh p.a p.b := by
  obtain ⟨rowA, hrowA, h⟩ := bind_ok h
  obtain ⟨colA, hcolA, h⟩ := bind_ok h
  obtain ⟨rowB, hrowB, h⟩ := bind_ok h
  obtain ⟨colB, hcolB, h⟩ := bind_ok h
  obtain ⟨numThreads, hthreads, h⟩ := bind_ok h
  obtain ⟨a, hnewA, h⟩ := bind_ok h
  obtain ⟨b, hnewB, h⟩ := bind_ok h
  obtain ⟨printedA, -, h⟩ := bind_ok h
  obtain ⟨printedB, -, h⟩ := bind_ok h
  obtain ⟨⟨product, printed⟩, hproduct, h⟩ := bind_ok h
  cases h
  obtain ⟨hintRowA, rfl⟩ := assign_ok hrowA
  obtain ⟨hintColA, rfl⟩ := assign_ok hcolA
  obtain ⟨hintRowB, rfl⟩ := assign_ok hrowB
  obtain ⟨hintColB, rfl⟩ := assign_ok hcolB
  obtain ⟨hintThreads, rfl⟩ := assign_ok hthreads
  obtain ⟨hgrantA, -, hcol⟩ := newMatrix_ok hnewA
  obtain ⟨hgrantB, hrow, -⟩ := newMatrix_ok hnewB
  obtain ⟨hreturned, hgranted⟩ := normalProduct_ok hproduct
  refine ⟨⟨hintRowA, hintColA, hintRowB, hintColB, hintThreads⟩, ⟨hgrantA, hgrantB, ?_⟩,
    hcol, hrow, rfl, hreturned⟩
  intro hshape
  refine hgranted ?_
  rw [createDataMatrix, createDataMatrix, hcol, hrow, hshape]

theorem normalProduct_granted (fresh : Nat → Nat → α) (a b : MatrixT α) :
    ∃ r, normalProduct true fresh a b = .ok r := by
  unfold normalProduct
  cases calculateProductMatrix fresh a b with
  | none => exact ⟨_, rfl⟩
  | some product => exact ⟨_, rfl⟩

theorem prepare_granted (cells : Cells α) (hints : sizes.Ints) (hgrants : host.Grants) :
    ∃ p, prepare host cells sizes = .ok p := by
  obtain ⟨hrowA, hcolA, hrowB, hcolB, hthreads⟩ := hints
  obtain ⟨hA, hB, hproduct, -, -⟩ := hgrants
  obtain ⟨r, hr⟩ := normalProduct_granted cells.fresh
    (createDataMatrix cells.randA (initMatrix cells.fresh sizes.rowA sizes.colA))
    (createDataMatrix cells.randB (initMatrix cells.fresh sizes.rowB sizes.colB))
  simp only [prepare, assign_int hrowA, assign_int hcolA, assign_int hrowB, assign_int hcolB,
    assign_int hthreads, newMatrix, hA, hB, if_true, hproduct, bind, Except.bind, printMatrix, hr]
  exact ⟨_, rfl⟩

structure Multiplying (p : Prepared α) (s : State α) : Prop where
  threads : 1 ≤ p.numThreads
  product : ∃ product, p.product = some product
  running : Invariant p.a p.b p.numThreads s

def ProgramInvariant : Program α → Prop
  | .start => True
  | .multiplying p s => Multiplying p s
  | .ended result => ∃ printed, result = .ok printed

def programLeft (first : Nat) : Program α → Nat
  | .start => first + 2
  | .multiplying p s => measure p.a p.b p.numThreads s + 1
  | .ended _ => 0

theorem multiplying_cases {p : Prepared α} {s : State α} {mover : Mover} {q : Program α}
    (h : programStep host cells typed (.multiplying p s) mover = some q) :
    (∃ product, s.returns p.a p.b = some product ∧ q = .ended (cleanUp p product)) ∨
      ∃ t, step p.a p.b p.numThreads s mover = some t ∧ q = .multiplying p t := by
  cases hreturns : s.returns p.a p.b with
  | none =>
      simp only [programStep, hreturns] at h
      obtain ⟨t, ht, rfl⟩ := Option.map_eq_some_iff.mp h
      exact .inr ⟨t, ht, rfl⟩
  | some product =>
      cases mover with
      | worker t => simp [programStep, hreturns] at h
      | main =>
          simp only [programStep, hreturns, Option.some.injEq] at h
          exact .inl ⟨product, rfl, h.symm⟩

/-- With the numbers and the host as they must be, each step leads on to the end. -/
theorem runsToReturn_of_granted (hsizes : typed.sizes = some sizes) (hints : sizes.Ints)
    (hshape : sizes.colA = sizes.rowB) (hthreads : 1 ≤ sizes.numThreads)
    (hgrants : host.Grants) : RunsToReturn host cells typed := by
  obtain ⟨p, hprepare⟩ := prepare_granted cells hints hgrants
  obtain ⟨-, -, hcol, hrow, hnum, hproduct⟩ := prepare_ok hprepare
  have hab : p.a.col = p.b.row := by rw [hcol, hrow, hshape]
  have hn : 1 ≤ p.numThreads := by rw [hnum]; exact hthreads
  obtain ⟨c, hc, -⟩ := (calculateProductMatrix_spec cells.fresh p.a p.b).2 hab
  have henter : enterMulti host p = .ok () := by
    obtain ⟨-, -, -, hmulti, hhost⟩ := hgrants
    simp [enterMulti, hhost, hab, hmulti, Nat.ne_of_gt hn]
  have hfirst : programStep host cells typed .start .main =
      some (.multiplying p (initialState cells.fresh)) := by
    simp only [programStep, hsizes, hprepare, henter]
  refine @runsTo_of_measure _ _ _ ProgramInvariant _
    (programLeft (measure p.a p.b p.numThreads (initialState cells.fresh))) ?_ ?_ ?_ _ trivial
  · intro q mover r hq hstep
    cases q with
    | start =>
        cases mover with
        | worker t => cases hstep
        | main =>
            rw [hfirst] at hstep
            cases hstep
            exact ⟨hn, ⟨c, hproduct.trans hc⟩, Invariant.initial cells.fresh⟩
    | multiplying p s =>
        obtain ⟨product, -, rfl⟩ | ⟨t, hmoved, rfl⟩ := multiplying_cases hstep
        · obtain ⟨normal, hnormal⟩ := hq.product
          exact cleanUp_product product hnormal
        · exact ⟨hq.threads, hq.product, hq.running.step hq.threads s mover t hmoved⟩
    | ended result => cases hstep
  · intro q mover r hq hstep
    cases q with
    | start =>
        cases mover with
        | worker t => cases hstep
        | main =>
            rw [hfirst] at hstep
            cases hstep
            simp only [programLeft]
            omega
    | multiplying p s =>
        obtain ⟨product, -, rfl⟩ | ⟨t, hmoved, rfl⟩ := multiplying_cases hstep
        · exact Nat.succ_pos _
        · exact Nat.succ_lt_succ (hq.running.measure_step hmoved)
    | ended result => cases hstep
  · intro q hq
    cases q with
    | start => exact .inr ⟨.main, _, hfirst⟩
    | multiplying p s =>
        cases hreturns : s.returns p.a p.b with
        | none =>
            obtain ⟨mover, t, hstep⟩ := hq.running.progress hreturns
            exact .inr ⟨mover, .multiplying p t, by simp only [programStep, hreturns, hstep]; rfl⟩
        | some product => exact .inr ⟨.main, _, by simp only [programStep, hreturns]; rfl⟩
    | ended result =>
        obtain ⟨printed, rfl⟩ := hq
        exact .inl ⟨printed, rfl⟩

/-- A fault in the first step is the end of the program. -/
theorem not_runsToReturn_of_fault {fault : Fault}
    (h : programStep host cells typed .start .main = some (.ended (.error fault))) :
    ¬ RunsToReturn host cells typed := by
  have hrun : Execution.run (programStep host cells typed) .start [.main] =
      some (.ended (.error fault)) := run_cons.mpr ⟨_, h, rfl⟩
  refine not_runsTo hrun ?_ fun _ => rfl
  rintro ⟨printed, hprinted⟩
  cases hprinted

theorem returns_only_if (accepted : typed.sizes = some sizes)
    (hruns : RunsToReturn host cells typed) :
    1 ≤ sizes.numThreads ∧ sizes.colA = sizes.rowB ∧ sizes.Ints ∧ host.Grants := by
  cases hprepare : prepare host cells sizes with
  | error fault =>
      have hfirst : programStep host cells typed .start .main = some (.ended (.error fault)) := by
        simp only [programStep, accepted, hprepare]
      exact absurd hruns (not_runsToReturn_of_fault hfirst)
  | ok p =>
      obtain ⟨hints, ⟨hA, hB, hgranted⟩, hcol, hrow, hnum, hproduct⟩ := prepare_ok hprepare
      cases henter : enterMulti host p with
      | error fault =>
          have hfirst : programStep host cells typed .start .main =
              some (.ended (.error fault)) := by
            simp only [programStep, accepted, hprepare, henter]
          exact absurd hruns (not_runsToReturn_of_fault hfirst)
      | ok _ =>
          have hfirst : programStep host cells typed .start .main =
              some (.multiplying p (initialState cells.fresh)) := by
            simp only [programStep, accepted, hprepare, henter]
          by_cases hab : p.a.col = p.b.row
          · have hshape : sizes.colA = sizes.rowB := by rw [← hcol, ← hrow, hab]
            have hrest : host.threads = true ∧ host.productMulti = true ∧ p.numThreads ≠ 0 := by
              simp only [enterMulti, hab] at henter
              grind
            obtain ⟨hhost, hmulti, hn⟩ := hrest
            exact ⟨by omega, hshape, hints, hA, hB, hgranted hshape, hmulti, hhost⟩
          · -- both products return `NULL`, and the clean-up frees the normal one
            have hnull := (calculateProductMatrix_spec cells.fresh p.a p.b).1 hab
            have hsecond : programStep host cells typed
                (.multiplying p (initialState cells.fresh)) .main =
                some (.multiplying p { initialState cells.fresh with main := .returnedNull }) := by
              simp [programStep, initialState, State.returns, step, mainStep, hab]
            have hthird : programStep host cells typed
                (.multiplying p { initialState cells.fresh with main := .returnedNull }) .main =
                some (.ended (cleanUp p none)) := by
              simp [programStep, State.returns]
            have hrun : Execution.run (programStep host cells typed) .start
                [.main, .main, .main] = some (.ended (cleanUp p none)) :=
              run_cons.mpr ⟨_, hfirst, run_cons.mpr ⟨_, hsecond, run_cons.mpr ⟨_, hthird, rfl⟩⟩⟩
            refine absurd hruns (not_runsTo hrun ?_ fun _ => rfl)
            rintro ⟨printed, hprinted⟩
            exact cleanUp_ok (Program.ended.inj hprinted) (hproduct.trans hnull)

/-- `main` comes to its `return` exactly with a thread at least, matrices that can be
multiplied, numbers that fit into an `int` and a host that grants memory and threads. -/
theorem main_returns_iff (host : Host) (cells : Cells α) (typed : Typed) (sizes : Sizes)
    (accepted : typed.sizes = some sizes) :
    RunsToReturn host cells typed ↔
      1 ≤ sizes.numThreads ∧ sizes.colA = sizes.rowB ∧ sizes.Ints ∧ host.Grants := by
  refine ⟨returns_only_if accepted, ?_⟩
  rintro ⟨hthreads, hshape, hints, hgrants⟩
  exact runsToReturn_of_granted accepted hints hshape hthreads hgrants

end Program

def grantingHost : Host := ⟨true, true, true, true, true⟩

def someCells : Cells Nat := ⟨fun _ _ => 1, fun _ _ => 1, fun _ _ => 0⟩

def typeNumbers (rowA colA rowB colB numThreads : String) : Typed :=
  ⟨[rowA.toList], [colA.toList], [rowB.toList], [colB.toList], [numThreads.toList]⟩

theorem main_returns_one_by_one :
    RunsToReturn grantingHost someCells (typeNumbers "1" "1" "1" "1" "2") := by
  exact (main_returns_iff _ _ _ ⟨1, 1, 1, 1, 2⟩ (by decide)).mpr (by decide)

/-- No threads, or matrices of two rows and three columns. -/
theorem main_does_not_return :
    (typeNumbers "1" "1" "1" "1" "0").sizes = some ⟨1, 1, 1, 1, 0⟩ ∧
    ¬ RunsToReturn grantingHost someCells (typeNumbers "1" "1" "1" "1" "0") ∧
    (typeNumbers "2" "3" "2" "3" "1").sizes = some ⟨2, 3, 2, 3, 1⟩ ∧
    ¬ RunsToReturn grantingHost someCells (typeNumbers "2" "3" "2" "3" "1") := by
  have hnone : (typeNumbers "1" "1" "1" "1" "0").sizes = some ⟨1, 1, 1, 1, 0⟩ := by decide
  have hshapes : (typeNumbers "2" "3" "2" "3" "1").sizes = some ⟨2, 3, 2, 3, 1⟩ := by decide
  refine ⟨hnone, fun hruns => ?_, hshapes, fun hruns => ?_⟩
  · exact absurd (returns_only_if hnone hruns).1 (by decide)
  · exact absurd (returns_only_if hshapes hruns).2.1 (by decide)

end LinuxTraining.MatrixProduct
