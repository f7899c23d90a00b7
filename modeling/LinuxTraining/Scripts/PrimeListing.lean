import LinuxTraining.Library.Stdio
import Mathlib.Data.Int.Range
import Mathlib.Data.Nat.Prime.Basic

/-!
The prime listing of `function1.sh` and `function.sh`. The function `is_prime` counts with the
same global variable `i` as the loop that calls it. Arithmetic is that of the shell, in 64 bits.
-/
namespace LinuxTraining.PrimeListing
open Stdio

/-- The number that the shell keeps of a result, or of a number that is typed. -/
def wrap (n : Int) : Int := (n + 2 ^ 63) % 2 ^ 64 - 2 ^ 63

def IsShellInt (n : Int) : Prop := -2 ^ 63 ≤ n ∧ n < 2 ^ 63

/-- The global variables and the output; no command reads `visited`, the arguments of the
calls of `is_prime`. -/
structure Shell where
  i : Int
  ctr : Int
  output : List Char
  visited : List Int

def printNumber (n : Int) : List Char := printInt n ++ [' ']

/-- The loop of `is_prime`, from a turn on; `none`: it takes more turns than `fuel`. -/
def trialLoop (n : Int) : (fuel : Nat) → Shell → Option Shell
  | 0, _ => none
  | fuel + 1, sh =>
      if sh.i < n then
        trialLoop n fuel
          { sh with
            ctr := if n.tmod sh.i = 0 then wrap (sh.ctr + 1) else sh.ctr
            i := wrap (sh.i + 1) }
      else some sh

def isPrime (fuel : Nat) (n : Int) (sh : Shell) : Option Shell :=
  if n < 2 then some sh
  else
    (trialLoop n fuel { sh with ctr := 0, i := 2 }).map fun sh =>
      if sh.ctr = 0 then { sh with output := sh.output ++ printNumber n } else sh

def mainLoop (ri : Int) : (fuel : Nat) → Shell → Option Shell
  | 0, _ => none
  | fuel + 1, sh =>
      if sh.i ≤ ri then
        match isPrime fuel sh.i { sh with visited := sh.visited ++ [sh.i] } with
        | none => none
        | some sh => mainLoop ri fuel { sh with i := wrap (sh.i + 1) }
      else some sh

/-- `printf "%d"` of a number that is typed: the nearest one in range. -/
def printTyped (n : Int) : List Char := printInt (max (-2 ^ 63) (min (2 ^ 63 - 1) n))

def header (le ri : Int) : List Char :=
  "Prime Numbers between ".toList ++ printTyped le ++ " and ".toList ++ printTyped ri ++
    " are: ".toList

/-- The script, after the two ends are read. -/
def script (fuel : Nat) (le ri : Int) : Option Shell :=
  (mainLoop (wrap ri) fuel ⟨wrap le, 0, header le ri, []⟩).map fun sh =>
    { sh with output := sh.output ++ ['\n'] }

def upTo (le ri : Int) : List Int := Int.range le (ri + 1)

def primes (le ri : Int) : List Int := (upTo le ri).filter fun n => n.toNat.Prime

variable {fuel : Nat} {n : Int} {sh sh' : Shell} {le ri : Int}

theorem wrap_of_isShellInt (h : IsShellInt n) : wrap n = n := by
  obtain ⟨hlow, hhigh⟩ := h
  rw [wrap, Int.emod_eq_of_lt] <;> omega

theorem isShellInt_wrap (n : Int) : IsShellInt (wrap n) := by
  have hlow := Int.emod_nonneg (n + 2 ^ 63) (show (2 : Int) ^ 64 ≠ 0 by decide)
  have hhigh := Int.emod_lt_of_pos (n + 2 ^ 63) (show (0 : Int) < 2 ^ 64 by decide)
  constructor <;> rw [wrap] <;> omega

theorem range_cons {a b : Int} (h : a < b) : Int.range a b = a :: Int.range (a + 1) b := by
  have hlength : (b - a).toNat = (b - (a + 1)).toNat + 1 := by omega
  rw [Int.range, hlength, List.range_succ_eq_map, List.map_cons, List.map_map, Int.range]
  congr 1
  · exact Int.add_zero a
  · apply List.map_congr_left
    intro k hk
    simp only [Function.comp_apply]
    omega

theorem range_nil {a b : Int} (h : b ≤ a) : Int.range a b = [] := by
  have hlength : (b - a).toNat = 0 := by omega
  rw [Int.range, hlength]
  rfl

def divisorsFrom (i n : Int) : List Int := (Int.range i n).filter fun d => d ∣ n

theorem divisorsFrom_last (n : Int) : divisorsFrom n n = [] := by
  rw [divisorsFrom, range_nil (Int.le_refl n), List.filter_nil]

theorem length_divisorsFrom {i : Int} (h : i < n) :
    (divisorsFrom i n).length = (if i ∣ n then 1 else 0) + (divisorsFrom (i + 1) n).length := by
  rw [divisorsFrom, range_cons h, List.filter_cons]
  by_cases hdivides : i ∣ n
  · rw [if_pos (decide_eq_true hdivides), if_pos hdivides, List.length_cons, Nat.add_comm]
    rfl
  · rw [if_neg (by simpa using hdivides), if_neg hdivides, Nat.zero_add]
    rfl

/-- The loop ends with `i` at the number itself, and has counted its divisors below. -/
theorem trialLoop_eq (fuel : Nat) (sh : Shell) (hn : IsShellInt n) (hi : 2 ≤ sh.i)
    (hle : sh.i ≤ n) (hctr : 0 ≤ sh.ctr) (hroom : sh.ctr + (n - sh.i) < 2 ^ 63)
    (hfuel : (n - sh.i).toNat < fuel) :
    trialLoop n fuel sh =
      some { sh with i := n, ctr := sh.ctr + (divisorsFrom sh.i n).length } := by
  induction fuel generalizing sh with
  | zero => cases hfuel
  | succ fuel ih =>
      obtain ⟨hlow, hhigh⟩ := hn
      rw [trialLoop]
      by_cases hlt : sh.i < n
      · have hnext : wrap (sh.i + 1) = sh.i + 1 := wrap_of_isShellInt ⟨by omega, by omega⟩
        have hcount : wrap (sh.ctr + 1) = sh.ctr + 1 := wrap_of_isShellInt ⟨by omega, by omega⟩
        rw [if_pos hlt, hnext, hcount, length_divisorsFrom hlt]
        by_cases hdivides : sh.i ∣ n
        · have hmod : n.tmod sh.i = 0 := Int.dvd_iff_tmod_eq_zero.mp hdivides
          rw [if_pos hmod, if_pos hdivides]
          have hrest := ih { sh with ctr := sh.ctr + 1, i := sh.i + 1 }
            (by dsimp only; omega) (by dsimp only; omega) (by dsimp only; omega)
            (by dsimp only; omega) (by dsimp only; omega)
          rw [hrest]
          simp [Int.add_assoc]
        · have hmod : ¬n.tmod sh.i = 0 := fun hmod => hdivides (Int.dvd_iff_tmod_eq_zero.mpr hmod)
          rw [if_neg hmod, if_neg hdivides]
          have hrest := ih { sh with i := sh.i + 1 } (by dsimp only; omega)
            (by dsimp only; omega) hctr (by dsimp only; omega) (by dsimp only; omega)
          rw [hrest]
          simp
      · have hlast : sh.i = n := by omega
        rw [if_neg hlt, hlast, divisorsFrom_last]
        simp [← hlast]

/-- A number is prime if it has no divisor from 2 on below it. -/
theorem prime_iff_divisorsFrom (htwo : 2 ≤ n) :
    n.toNat.Prime ↔ (divisorsFrom 2 n).length = 0 := by
  rw [Nat.prime_def_lt', List.length_eq_zero_iff, divisorsFrom, List.filter_eq_nil_iff]
  simp only [decide_eq_true_eq, Int.mem_range_iff]
  constructor
  · rintro ⟨-, hnone⟩ d ⟨hlow, hhigh⟩ hdvd
    refine hnone d.toNat (by omega) (by omega) ?_
    rw [← Int.natCast_dvd_natCast, Int.toNat_of_nonneg (by omega), Int.toNat_of_nonneg (by omega)]
    exact hdvd
  · intro hnone
    refine ⟨by omega, fun m hlow hhigh hdvd => ?_⟩
    refine hnone (m : Int) ⟨by omega, by omega⟩ ?_
    rw [← Int.natCast_dvd_natCast, Int.toNat_of_nonneg (by omega)] at hdvd
    exact hdvd

/-- `is_prime` prints a prime, and leaves `i` where the calling loop had it. -/
theorem isPrime_eq (fuel : Nat) (sh : Shell) (hn : IsShellInt n) (hi : sh.i = n)
    (hfuel : n.toNat < fuel) :
    ∃ ctr, isPrime fuel n sh =
      some { sh with
        ctr
        output := sh.output ++ if n.toNat.Prime then printNumber n else [] } := by
  obtain ⟨hlow, hhigh⟩ := hn
  by_cases hsmall : n < 2
  · have hnot : ¬n.toNat.Prime := fun hprime => by
      have := hprime.two_le
      omega
    exact ⟨sh.ctr, by rw [isPrime, if_pos hsmall, if_neg hnot, List.append_nil]⟩
  · have hloop := trialLoop_eq (n := n) fuel { sh with ctr := 0, i := 2 }
      ⟨hlow, hhigh⟩ (Int.le_refl 2) (by dsimp only; omega) (Int.le_refl 0)
      (by dsimp only; omega) (by dsimp only; omega)
    refine ⟨(divisorsFrom 2 n).length, ?_⟩
    rw [isPrime, if_neg hsmall, hloop]
    simp only [Option.map_some, Int.zero_add, ← hi]
    rw [hi]
    by_cases hprime : n.toNat.Prime
    · have hnone := (prime_iff_divisorsFrom (by omega)).mp hprime
      simp [hnone, hprime]
    · have hsome := mt (prime_iff_divisorsFrom (by omega)).mpr hprime
      simp [hsome, hprime]

theorem trialLoop_exit (hn : IsShellInt n) (hi : 2 ≤ sh.i) (hle : sh.i ≤ n)
    (h : trialLoop n fuel sh = some sh') : sh'.i = n := by
  induction fuel generalizing sh with
  | zero => cases h
  | succ fuel ih =>
      obtain ⟨hlow, hhigh⟩ := hn
      rw [trialLoop] at h
      split at h
      · next hlt =>
        have hnext : wrap (sh.i + 1) = sh.i + 1 := wrap_of_isShellInt ⟨by omega, by omega⟩
        rw [hnext] at h
        exact ih (by dsimp only; omega) (by dsimp only; omega) h
      · cases h
        omega

/-- Whatever way `is_prime` ends, `i` is where the calling loop had it. -/
theorem isPrime_frame (hn : IsShellInt n) (hi : sh.i = n) (h : isPrime fuel n sh = some sh') :
    sh'.i = n := by
  unfold isPrime at h
  split at h
  · cases h
    exact hi
  · obtain ⟨after, hloop, rfl⟩ := Option.map_eq_some_iff.mp h
    have hexit := trialLoop_exit hn (Int.le_refl 2) (by dsimp only; omega) hloop
    split <;> exact hexit

theorem upTo_cons (h : le ≤ ri) : upTo le ri = le :: upTo (le + 1) ri :=
  range_cons (Int.lt_add_one_of_le h)

theorem upTo_nil (h : ri < le) : upTo le ri = [] := range_nil h

theorem primes_cons (h : le ≤ ri) :
    (primes le ri).flatMap printNumber =
      (if le.toNat.Prime then printNumber le else []) ++
        (primes (le + 1) ri).flatMap printNumber := by
  rw [primes, upTo_cons h, List.filter_cons]
  split <;> simp_all [primes]

/-- The loop calls `is_prime` for each number once. -/
theorem mainLoop_eq (fuel : Nat) (sh : Shell) (hri : ri < 2 ^ 63 - 1) (hlow : -2 ^ 63 ≤ sh.i)
    (hle : sh.i ≤ ri + 1) (hfuel : (ri + 1 - sh.i).toNat + ri.toNat < fuel) :
    ∃ ctr, mainLoop ri fuel sh =
      some ⟨ri + 1, ctr, sh.output ++ (primes sh.i ri).flatMap printNumber,
        sh.visited ++ upTo sh.i ri⟩ := by
  induction fuel generalizing sh with
  | zero => cases hfuel
  | succ fuel ih =>
      rw [mainLoop]
      by_cases hturn : sh.i ≤ ri
      · obtain ⟨ctr, hprime⟩ := isPrime_eq (n := sh.i) fuel
          { sh with visited := sh.visited ++ [sh.i] } ⟨hlow, by omega⟩ rfl (by omega)
        have hnext : wrap (sh.i + 1) = sh.i + 1 := wrap_of_isShellInt ⟨by omega, by omega⟩
        obtain ⟨last, hrest⟩ := ih ⟨sh.i + 1, ctr, sh.output ++
          (if sh.i.toNat.Prime then printNumber sh.i else []), sh.visited ++ [sh.i]⟩
          (by dsimp only; omega) (by dsimp only; omega) (by dsimp only; omega)
        refine ⟨last, ?_⟩
        rw [if_pos hturn, hprime]
        simp only [hnext]
        rw [hrest, primes_cons hturn, upTo_cons hturn]
        simp only [List.append_assoc, List.singleton_append]
      · have hlast : sh.i = ri + 1 := by omega
        refine ⟨sh.ctr, ?_⟩
        rw [if_neg hturn, primes, upTo_nil (by omega)]
        simp [← hlast]

theorem mem_upTo : n ∈ upTo le ri ↔ le ≤ n ∧ n ≤ ri := by
  rw [upTo, Int.mem_range_iff, Int.lt_add_one_iff]

theorem upTo_ascending (le ri : Int) : (upTo le ri).Pairwise (· < ·) := by
  rw [upTo, Int.range, List.pairwise_map]
  exact List.pairwise_lt_range.imp fun h => by omega

theorem mem_primes : n ∈ primes le ri ↔ le ≤ n ∧ n ≤ ri ∧ n.toNat.Prime := by
  rw [primes, List.mem_filter, mem_upTo, decide_eq_true_iff, and_assoc]

theorem primes_ascending (le ri : Int) : (primes le ri).Pairwise (· < ·) :=
  (upTo_ascending le ri).filter _

/-- What the script has done when it ends: it called `is_prime` for each number from `le` to
`ri` once, in order, and printed those that are prime behind `heading`. -/
structure Listed (heading : List Char) (le ri : Int) (sh : Shell) : Prop where
  visited_ascending : sh.visited.Pairwise (· < ·)
  visited : ∀ n, n ∈ sh.visited ↔ le ≤ n ∧ n ≤ ri
  output : ∃ numbers : List Int, sh.output = heading ++ numbers.flatMap printNumber ++ ['\n'] ∧
    numbers.Pairwise (· < ·) ∧ ∀ n, n ∈ numbers ↔ le ≤ n ∧ n ≤ ri ∧ n.toNat.Prime

/-- The loop and the last `printf`, from an end that the shell can hold. -/
theorem mainLoop_listed (heading : List Char) (hlow : -2 ^ 63 ≤ le) (hri : ri < 2 ^ 63 - 1)
    (hfuel : (ri + 1 - le).toNat + ri.toNat < fuel) :
    ∃ sh, mainLoop ri fuel ⟨le, 0, heading, []⟩ = some sh ∧
      Listed heading le ri { sh with output := sh.output ++ ['\n'] } := by
  by_cases hempty : ri < le
  · have hnone : ∀ n, ¬(le ≤ n ∧ n ≤ ri) := fun n h => by omega
    refine ⟨⟨le, 0, heading, []⟩, ?_, List.Pairwise.nil, ?_, [], ?_, List.Pairwise.nil, ?_⟩
    · cases fuel with
      | zero => cases hfuel
      | succ fuel => rw [mainLoop, if_neg (Int.not_le.mpr hempty)]
    · exact fun n => ⟨fun h => absurd h List.not_mem_nil, fun h => absurd h (hnone n)⟩
    · rw [List.flatMap_nil, List.append_nil]
    · exact fun n => ⟨fun h => absurd h List.not_mem_nil, fun h => absurd ⟨h.1, h.2.1⟩ (hnone n)⟩
  · obtain ⟨ctr, hloop⟩ := mainLoop_eq fuel ⟨le, 0, heading, []⟩ hri hlow
      (by dsimp only; omega) hfuel
    refine ⟨_, hloop, ?_, ?_, ?_⟩
    · exact upTo_ascending le ri
    · exact fun n => mem_upTo
    · exact ⟨primes le ri, rfl, primes_ascending le ri, fun n => mem_primes⟩

/-- A call of `is_prime` leaves `i` at its argument, and so the script ends and lists the primes
between the numbers that the shell keeps of the two ends. -/
theorem primes_listed (le ri : Int) (hri : wrap ri < 2 ^ 63 - 1) :
    (∀ fuel n sh sh', IsShellInt n → sh.i = n → isPrime fuel n sh = some sh' → sh'.i = n) ∧
      ∃ enough, ∀ fuel, enough ≤ fuel → ∃ sh, script fuel le ri = some sh ∧
        Listed (header le ri) (wrap le) (wrap ri) sh := by
  refine ⟨fun fuel n sh sh' => isPrime_frame,
    (wrap ri + 1 - wrap le).toNat + (wrap ri).toNat + 1, fun fuel hfuel => ?_⟩
  obtain ⟨sh, hloop, hlisted⟩ :=
    mainLoop_listed (header le ri) (isShellInt_wrap le).1 hri (Nat.lt_of_succ_le hfuel)
  exact ⟨_, by rw [script, hloop]; rfl, hlisted⟩

theorem primes_listed_twelve : ∃ enough, ∀ fuel, enough ≤ fuel →
    ∃ sh, script fuel (-3) 12 = some sh ∧ Listed (header (-3) 12) (-3) 12 sh :=
  (primes_listed (-3) 12 (by decide)).2

/-- There is no number between the ends that are typed, but the shell keeps 2 of the first. -/
theorem ends_beyond_range : ∃ sh, script 40 18446744073709551618 12 = some sh ∧
    sh.visited = [2, 3, 4, 5, 6, 7, 8, 9, 10, 11, 12] ∧
    sh.output = header 18446744073709551618 12 ++ "2 3 5 7 11 \n".toList ∧
    ¬Listed (header 18446744073709551618 12) 18446744073709551618 12 sh := by
  have hends : (script 40 18446744073709551618 12).map (fun sh => (sh.visited, sh.output)) =
      some ([2, 3, 4, 5, 6, 7, 8, 9, 10, 11, 12],
        header 18446744073709551618 12 ++ "2 3 5 7 11 \n".toList) := by decide +kernel
  obtain ⟨sh, hsh, hparts⟩ := Option.map_eq_some_iff.mp hends
  obtain ⟨hvisited, houtput⟩ := Prod.mk.inj hparts
  refine ⟨sh, hsh, hvisited, houtput, fun hlisted => ?_⟩
  have htwo := (hlisted.visited 2).mp (by rw [hvisited]; exact List.mem_cons_self)
  exact absurd htwo.1 (by decide)

end LinuxTraining.PrimeListing
