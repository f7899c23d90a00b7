import LinuxTraining.MatrixProduct.MainProgram
import Mathlib.Data.Matrix.Mul

/-!
What the program prints. The cells are single digits and the arithmetic is that of `double`, but
no sum of products gets to where a `double` has to round, so both products that `main` prints are
the product of the two matrices of whole numbers.
-/
namespace LinuxTraining.MatrixProduct
open Execution

structure Double where
  value : Nat
  deriving DecidableEq

instance : Zero Double := ⟨⟨0⟩⟩

instance : Add Double := ⟨fun x y => ⟨toDouble (x.value + y.value)⟩⟩

instance : Mul Double := ⟨fun x y => ⟨toDouble (x.value * y.value)⟩⟩

/-- `rand() % 10` in every cell. -/
def drawnCells (randA randB : Nat → Nat → Nat) (fresh : Nat → Nat → Double) : Cells Double where
  randA i j := ⟨randA i j % 10⟩
  randB i j := ⟨randB i j % 10⟩
  fresh := fresh

def drawn (rand : Nat → Nat → Nat) (row col : Nat) : Matrix (Fin row) (Fin col) Nat :=
  fun i j => rand i j % 10

def rowsOf {row col : Nat} (m : Matrix (Fin row) (Fin col) Nat) : Printed Double :=
  List.ofFn fun i => List.ofFn fun j => ⟨m i j⟩

theorem add_exact {x y : Double} (h : x.value + y.value < 2 ^ 53) :
    (x + y).value = x.value + y.value :=
  toDouble_small h

theorem mul_exact {x y : Double} (h : x.value * y.value < 2 ^ 53) :
    (x * y).value = x.value * y.value :=
  toDouble_small h

section Dot
variable {a b : MatrixT Double} {i j n : Nat}

theorem dot_exact (hn : n ≤ a.col) (hcol : a.col < 2 ^ 31)
    (ha : ∀ k, k < a.col → (a.data i k).value ≤ 9) (hb : ∀ k, k < a.col → (b.data k j).value ≤ 9) :
    (dot a b i j n).value = ∑ k ∈ Finset.range n, (a.data i k).value * (b.data k j).value ∧
      (dot a b i j n).value ≤ 81 * n := by
  induction n with
  | zero => exact ⟨rfl, Nat.zero_le _⟩
  | succ n ih =>
      obtain ⟨hsum, hbound⟩ := ih (by omega)
      have hproduct : (a.data i n).value * (b.data n j).value ≤ 9 * 9 :=
        Nat.mul_le_mul (ha n (by omega)) (hb n (by omega))
      have hmul : (a.data i n * b.data n j).value = (a.data i n).value * (b.data n j).value :=
        mul_exact (by omega)
      have hadd : (dot a b i j (n + 1)).value =
          (dot a b i j n).value + (a.data i n).value * (b.data n j).value := by
        rw [dot_succ, add_exact (by omega), hmul]
      rw [hadd, Finset.sum_range_succ, hsum]
      exact ⟨rfl, by omega⟩

end Dot

theorem map_range_eq_ofFn {β : Type*} (n : Nat) (f : Nat → β) :
    (List.range n).map f = List.ofFn fun i : Fin n => f i := by
  refine List.ext_getElem (by simp) fun i hi hi' => ?_
  simp

theorem printMatrix_eq {row col : Nat} {m : MatrixT Double} (hrow : m.row = row)
    (hcol : m.col = col) (values : Matrix (Fin row) (Fin col) Nat)
    (hdata : ∀ (i : Fin row) (j : Fin col), (m.data i j).value = values i j) :
    printMatrix (some m) = .ok (rowsOf values) := by
  subst hrow hcol
  simp only [printMatrix, rowsOf, map_range_eq_ofFn, Except.ok.injEq]
  refine congrArg List.ofFn (funext fun i => congrArg List.ofFn (funext fun j => ?_))
  rw [← hdata i j]

variable {host : Host} {randA randB : Nat → Nat → Nat} {fresh : Nat → Nat → Double}
  {sizes : Sizes} {typed : Typed} {p : Prepared Double}

structure Drawn (randA randB : Nat → Nat → Nat) (sizes : Sizes) (p : Prepared Double) : Prop where
  a : p.a.row = sizes.rowA ∧ p.a.col = sizes.colA
  b : p.b.row = sizes.rowB ∧ p.b.col = sizes.colB
  cellsA : ∀ i j, i < sizes.rowA → j < sizes.colA → p.a.data i j = ⟨randA i j % 10⟩
  cellsB : ∀ i j, i < sizes.rowB → j < sizes.colB → p.b.data i j = ⟨randB i j % 10⟩
  colA : sizes.colA < 2 ^ 31

theorem Drawn.cell (h : Drawn randA randB sizes p) (hshape : sizes.colA = sizes.rowB)
    (i : Fin sizes.rowA) (j : Fin sizes.colB) :
    (dot p.a p.b i j p.a.col).value =
      (drawn randA sizes.rowA sizes.colA * drawn randB sizes.colA sizes.colB) i j := by
  have hcol := h.a.2
  have ha : ∀ k, k < p.a.col → p.a.data i k = ⟨randA i k % 10⟩ := fun k hk =>
    h.cellsA i k i.isLt (by omega)
  have hb : ∀ k, k < p.a.col → p.b.data k j = ⟨randB k j % 10⟩ := fun k hk =>
    h.cellsB k j (by omega) j.isLt
  have hdigit : ∀ x, x % 10 ≤ 9 := fun x => Nat.le_of_lt_succ (Nat.mod_lt x (by decide))
  have hexact := (dot_exact (a := p.a) (b := p.b) (i := i) (j := j) (Nat.le_refl _)
    (by rw [hcol]; exact h.colA) (fun k hk => by rw [ha k hk]; exact hdigit _)
    (fun k hk => by rw [hb k hk]; exact hdigit _)).1
  rw [hexact, Matrix.mul_apply, ← hcol, ← Fin.sum_univ_eq_sum_range]
  refine Finset.sum_congr rfl fun k _ => ?_
  rw [ha k k.isLt, hb k k.isLt]
  rfl

theorem newMatrix_eq {granted : Bool} {row col : Nat} {m : MatrixT Double}
    (h : newMatrix granted fresh row col = .ok m) : m = ⟨row, col, fresh⟩ := by
  cases granted with
  | false => cases h
  | true =>
      cases h
      rfl

theorem normalProduct_printed {granted : Bool} {a b : MatrixT Double}
    {product : Option (MatrixT Double)} {printed : List (Printed Double)}
    (h : normalProduct granted fresh a b = .ok (product, printed)) :
    printProduct product = .ok printed := by
  simp only [normalProduct] at h
  split at h
  · cases h
  · cases hprint : printProduct (calculateProductMatrix fresh a b) with
    | error fault =>
        rw [hprint] at h
        cases h
    | ok rows =>
        rw [hprint] at h
        cases h
        exact hprint

theorem print_drawn (rand : Nat → Nat → Nat) (row col : Nat) :
    printMatrix (some (createDataMatrix (fun i j => (⟨rand i j % 10⟩ : Double))
      ⟨row, col, fresh⟩)) = .ok (rowsOf (drawn rand row col)) := by
  refine printMatrix_eq (m := createDataMatrix _ ⟨row, col, fresh⟩) rfl rfl
    (drawn rand row col) fun i j => ?_
  exact congrArg Double.value (if_pos ⟨i.isLt, j.isLt⟩)

theorem prepare_drawn (h : prepare host (drawnCells randA randB fresh) sizes = .ok p) :
    Drawn randA randB sizes p ∧ p.numThreads = sizes.numThreads ∧
      p.product = calculateProductMatrix fresh p.a p.b ∧
      ∃ printed, printProduct p.product = .ok printed ∧
        p.printed = [rowsOf (drawn randA sizes.rowA sizes.colA),
          rowsOf (drawn randB sizes.rowB sizes.colB)] ++ printed := by
  obtain ⟨hints, -, -, -, hthreads, hproduct⟩ := prepare_ok h
  obtain ⟨rowA, hrowA, h⟩ := bind_ok h
  obtain ⟨colA, hcolA, h⟩ := bind_ok h
  obtain ⟨rowB, hrowB, h⟩ := bind_ok h
  obtain ⟨colB, hcolB, h⟩ := bind_ok h
  obtain ⟨numThreads, -, h⟩ := bind_ok h
  obtain ⟨a, hnewA, h⟩ := bind_ok h
  obtain ⟨b, hnewB, h⟩ := bind_ok h
  obtain ⟨printedA, hprintedA, h⟩ := bind_ok h
  obtain ⟨printedB, hprintedB, h⟩ := bind_ok h
  obtain ⟨⟨product, printed⟩, hnormal, h⟩ := bind_ok h
  cases h
  obtain ⟨-, rfl⟩ := assign_ok hrowA
  obtain ⟨-, rfl⟩ := assign_ok hcolA
  obtain ⟨-, rfl⟩ := assign_ok hrowB
  obtain ⟨-, rfl⟩ := assign_ok hcolB
  obtain rfl := newMatrix_eq hnewA
  obtain rfl := newMatrix_eq hnewB
  have hdrawn : Drawn randA randB sizes
      ⟨createDataMatrix (drawnCells randA randB fresh).randA ⟨sizes.rowA, sizes.colA, fresh⟩,
        createDataMatrix (drawnCells randA randB fresh).randB ⟨sizes.rowB, sizes.colB, fresh⟩,
        numThreads, product, [printedA, printedB] ++ printed⟩ :=
    ⟨⟨rfl, rfl⟩, ⟨rfl, rfl⟩, fun i j hi hj => if_pos ⟨hi, hj⟩, fun i j hi hj => if_pos ⟨hi, hj⟩,
      hints.2.1⟩
  refine ⟨hdrawn, hthreads, hproduct, printed, normalProduct_printed hnormal, ?_⟩
  rw [Except.ok.inj (hprintedA.symm.trans (print_drawn randA sizes.rowA sizes.colA)),
    Except.ok.inj (hprintedB.symm.trans (print_drawn randB sizes.rowB sizes.colB))]

/-- A product whose cells are the sums of products is printed as the exact product. -/
theorem Drawn.print (h : Drawn randA randB sizes p) (hshape : sizes.colA = sizes.rowB)
    {c : MatrixT Double} (hrow : c.row = sizes.rowA) (hcol : c.col = sizes.colB)
    (hcells : ∀ i, i < c.row → ∀ j, j < c.col → c.data i j = dot p.a p.b i j p.a.col) :
    printProduct (some c) = .ok [rowsOf
      (drawn randA sizes.rowA sizes.colA * drawn randB sizes.colA sizes.colB)] := by
  have hprint := printMatrix_eq hrow hcol
    (drawn randA sizes.rowA sizes.colA * drawn randB sizes.colA sizes.colB) fun i j => by
      rw [hcells i (by omega) j (by omega)]
      exact h.cell hshape i j
  rw [printProduct, hprint]
  rfl

def PrintsExactly (host : Host) (randA randB : Nat → Nat → Nat) (fresh : Nat → Nat → Double)
    (sizes : Sizes) : Program Double → Prop
  | .start => True
  | .multiplying p s =>
      prepare host (drawnCells randA randB fresh) sizes = .ok p ∧
        enterMulti host p = .ok () ∧
        ∃ movers, Execution.run (step p.a p.b p.numThreads) (initialState fresh) movers = some s
  | .ended (.error _) => True
  | .ended (.ok printed) =>
      printed = [rowsOf (drawn randA sizes.rowA sizes.colA),
        rowsOf (drawn randB sizes.rowB sizes.colB),
        rowsOf (drawn randA sizes.rowA sizes.colA * drawn randB sizes.colA sizes.colB),
        rowsOf (drawn randA sizes.rowA sizes.colA * drawn randB sizes.colA sizes.colB)]

theorem cleanUp_printed {productMulti : Option (MatrixT Double)}
    {printed : List (Printed Double)} (h : cleanUp p productMulti = .ok printed) :
    ∃ more, printProduct productMulti = .ok more ∧ printed = p.printed ++ more := by
  obtain ⟨more, hmore, h⟩ := bind_ok h
  obtain ⟨_, _, h⟩ := bind_ok h
  obtain ⟨_, _, h⟩ := bind_ok h
  obtain ⟨_, _, h⟩ := bind_ok h
  cases h
  exact ⟨more, hmore, rfl⟩

theorem ends_exactly {s : State Double} {movers : List Mover}
    (hprepare : prepare host (drawnCells randA randB fresh) sizes = .ok p)
    (henter : enterMulti host p = .ok ())
    (hrun : Execution.run (step p.a p.b p.numThreads) (initialState fresh) movers = some s)
    {product : Option (MatrixT Double)} (hreturns : s.returns p.a p.b = some product) :
    PrintsExactly host randA randB fresh sizes (.ended (cleanUp p product)) := by
  cases hclean : cleanUp p product with
  | error fault => trivial
  | ok printed =>
      obtain ⟨hdrawn, -, hproduct, first, hfirst, hprinted⟩ := prepare_drawn hprepare
      obtain ⟨more, hmore, hall⟩ := cleanUp_printed hclean
      have hab : p.a.col = p.b.row := by
        by_contra hne
        exact cleanUp_ok hclean (hproduct.trans ((calculateProductMatrix_spec _ _ _).1 hne))
      have hshape : sizes.colA = sizes.rowB := by rw [← hdrawn.a.2, ← hdrawn.b.1, hab]
      have hn : 1 ≤ p.numThreads := by
        have hnonzero : p.numThreads ≠ 0 := by
          simp only [enterMulti, hab] at henter
          grind
        omega
      obtain ⟨-, hequal, -⟩ := product_multi_eq_sequential p.a p.b p.numThreads hn fresh fresh
      obtain ⟨c, hcall, hmulti⟩ := hequal hab
      obtain ⟨c', hcall', hrow, hcol, hcells⟩ := (calculateProductMatrix_spec fresh p.a p.b).2 hab
      obtain rfl : c = c' := Option.some.inj (hcall.symm.trans hcall')
      obtain ⟨r, rfl, hrowr, hcolr, hsame, -⟩ := hmulti s product ⟨⟨movers, hrun⟩, hreturns⟩
      have hrow' : c.row = sizes.rowA := hrow.trans hdrawn.a.1
      have hcol' : c.col = sizes.colB := hcol.trans hdrawn.b.2
      have hdots : ∀ i, i < c.row → ∀ j, j < c.col → c.data i j = dot p.a p.b i j p.a.col :=
        fun i hi j hj => hcells i (hrow ▸ hi) j (hcol ▸ hj)
      rw [hproduct, hcall, hdrawn.print hshape hrow' hcol' hdots] at hfirst
      rw [hdrawn.print hshape (hrowr.trans hrow') (hcolr.trans hcol') fun i hi j hj => by
        rw [hsame i (hrowr ▸ hi) j (hcolr ▸ hj)]
        exact hdots i (hrowr ▸ hi) j (hcolr ▸ hj)] at hmore
      cases hfirst
      cases hmore
      rw [PrintsExactly, hall, hprinted]
      rfl

theorem PrintsExactly.step (accepted : typed.sizes = some sizes) {q r : Program Double}
    {mover : Mover} (h : PrintsExactly host randA randB fresh sizes q)
    (hstep : programStep host (drawnCells randA randB fresh) typed q mover = some r) :
    PrintsExactly host randA randB fresh sizes r := by
  cases q with
  | start =>
      cases mover with
      | worker t => cases hstep
      | main =>
          simp only [programStep, accepted] at hstep
          cases hprepare : prepare host (drawnCells randA randB fresh) sizes with
          | error fault =>
              rw [hprepare] at hstep
              cases hstep
              trivial
          | ok p =>
              rw [hprepare] at hstep
              cases henter : enterMulti host p with
              | error fault =>
                  simp only [henter] at hstep
                  cases hstep
                  trivial
              | ok _ =>
                  simp only [henter] at hstep
                  cases hstep
                  exact ⟨hprepare, henter, [], rfl⟩
  | multiplying p s =>
      obtain ⟨hprepare, henter, movers, hrun⟩ := h
      obtain ⟨product, hreturns, rfl⟩ | ⟨t, hmoved, rfl⟩ := multiplying_cases hstep
      · exact ends_exactly hprepare henter hrun hreturns
      · refine ⟨hprepare, henter, movers ++ [mover], run_append.mpr ⟨s, hrun, ?_⟩⟩
        exact run_cons.mpr ⟨t, hmoved, rfl⟩
  | ended result => cases hstep

/-- Whenever `main` comes to its end, whatever was drawn and however the threads took turns, it
has printed the two matrices and twice their product over the whole numbers. -/
theorem main_prints_product (host : Host) (randA randB : Nat → Nat → Nat)
    (fresh : Nat → Nat → Double) (typed : Typed) (sizes : Sizes)
    (accepted : typed.sizes = some sizes) (movers : List Mover)
    (printed : List (Printed Double))
    (h : Execution.run (programStep host (drawnCells randA randB fresh) typed) .start movers =
      some (.ended (.ok printed))) :
    printed = [rowsOf (drawn randA sizes.rowA sizes.colA),
      rowsOf (drawn randB sizes.rowB sizes.colB),
      rowsOf (drawn randA sizes.rowA sizes.colA * drawn randB sizes.colA sizes.colB),
      rowsOf (drawn randA sizes.rowA sizes.colA * drawn randB sizes.colA sizes.colB)] :=
  invariant_run (I := PrintsExactly host randA randB fresh sizes)
    (fun _ _ _ hq hstep => PrintsExactly.step accepted hq hstep) (s := .start) trivial h

def Program.output : Program Double → Option (List (Printed Double))
  | .ended (.ok printed) => some printed
  | .start | .multiplying _ _ | .ended (.error _) => none

theorem ended_of_output {q : Option (Program Double)} (printed : List (Printed Double))
    (h : q.bind Program.output = some printed) : q = some (.ended (.ok printed)) := by
  obtain ⟨program, rfl, houtput⟩ := Option.bind_eq_some_iff.mp h
  cases program with
  | start | multiplying p s => cases houtput
  | ended result =>
      cases result with
      | error fault => cases houtput
      | ok rows =>
          cases houtput
          rfl

/-- One row of two cells and one column of two cells, with two threads. -/
theorem main_prints_product_digits : ∃ movers printed,
    Execution.run (programStep grantingHost
      (drawnCells (fun _ j => 13 + j) (fun i _ => 25 + i) fun _ _ => 0)
      (typeNumbers "1" "2" "2" "1" "2")) .start movers = some (.ended (.ok printed)) ∧
      printed = [rowsOf (drawn (fun _ j => 13 + j) 1 2), rowsOf (drawn (fun i _ => 25 + i) 2 1),
        rowsOf (drawn (fun _ j => 13 + j) 1 2 * drawn (fun i _ => 25 + i) 2 1),
        rowsOf (drawn (fun _ j => 13 + j) 1 2 * drawn (fun i _ => 25 + i) 2 1)] := by
  have hends := ended_of_output (q := Execution.run (programStep grantingHost
      (drawnCells (fun _ j => 13 + j) (fun i _ => 25 + i) fun _ _ => 0)
      (typeNumbers "1" "2" "2" "1" "2")) .start
      (List.replicate 5 .main ++ [.worker 0] ++ List.replicate 7 (.worker 1) ++
        List.replicate 4 .main))
    [[[⟨3⟩, ⟨4⟩]], [[⟨5⟩], [⟨6⟩]], [[⟨39⟩]], [[⟨39⟩]]] (by decide +kernel)
  exact ⟨_, _, hends, main_prints_product grantingHost _ _ _ _ ⟨1, 2, 2, 1, 2⟩ (by decide) _ _
    hends⟩

end LinuxTraining.MatrixProduct
