import LinuxTraining.Library.CString
import Mathlib.Data.List.Induction

/-!
`reverse_string` of `server.c`: two indices move towards each other and swap what
they stand on. `none` is an access outside the array, or a subtraction that no `int`
holds. The length of the string is an `int`: it is the length only where it fits.
-/
namespace LinuxTraining.Socket
open CString

def nul : Char := '\x00'

def charAt (str : List Char) (i : Int) : Option Char :=
  if i < 0 then none else str[i.toNat]?

/-- The three assignments of one turn of the loop. -/
def swap (str : List Char) (start stop : Int) : Option (List Char) := do
  let temp ← charAt str start
  let last ← charAt str stop
  some ((str.set start.toNat last).set stop.toNat temp)

def reverseLoop (str : List Char) (start stop : Int) : Option (List Char) :=
  if start < stop then
    match swap str start stop with
    | none => none
    | some str => reverseLoop str (start + 1) (stop - 1)
  else some str
termination_by (stop - start).toNat
decreasing_by omega

def intMax : Nat := 2147483647
def intMin : Int := -2147483648

/-- The `int` that a `size_t` becomes. -/
def intOf (n : Nat) : Int := Int.bmod n 4294967296

def reverseString (str : List Char) : Option (List Char) :=
  match text nul str with
  | none => none
  | some t =>
      let length := intOf t.length
      if length = intMin then none else reverseLoop str 0 (length - 1)

def turns (start stop : Int) : List (Int × Int) :=
  if start < stop then (start, stop) :: turns (start + 1) (stop - 1) else []
termination_by (stop - start).toNat
decreasing_by omega

def swapped (str : List Char) : List (Int × Int) :=
  match text nul str with
  | none => []
  | some t => turns 0 (intOf t.length - 1)

/-- The string is reversed where it stands, a second call brings it back, and no place
outside the string is read or written. -/
structure Reverses (t rest : List Char) : Prop where
  reversed : reverseString (t ++ nul :: rest) = some (t.reverse ++ nul :: rest)
  restored : (reverseString (t ++ nul :: rest)).bind reverseString = some (t ++ nul :: rest)
  inside : ∀ p ∈ swapped (t ++ nul :: rest),
    (0 ≤ p.1 ∧ p.1 < t.length) ∧ (0 ≤ p.2 ∧ p.2 < t.length)

/-- How many characters at the front of the string the loop reverses. -/
def reached (t : List Char) : Nat := (intOf t.length).toNat

def turned (t : List Char) : List Char := (t.take (reached t)).reverse ++ t.drop (reached t)

/-- The length is an `int`; or the `int` it becomes has a predecessor, and the string is
the same when the part of it that is not reached is turned and put in front. -/
def Measured (t : List Char) : Prop :=
  t.length ≤ intMax ∨
    intOf t.length ≠ intMin ∧ (t.drop (reached t)).reverse ++ t.take (reached t) = t

theorem charAt_append (before rest : List Char) (c : Char) {i : Int}
    (hi : i = before.length) : charAt (before ++ c :: rest) i = some c := by
  subst hi
  simp [charAt]

theorem set_append (before rest : List Char) (c d : Char) {i : Int} (hi : i = before.length) :
    (before ++ c :: rest).set i.toNat d = before ++ d :: rest := by
  subst hi
  simp

theorem swap_ends (before middle after : List Char) (a b : Char) {start stop : Int}
    (hstart : start = before.length) (hstop : stop = before.length + middle.length + 1) :
    swap (before ++ a :: middle ++ b :: after) start stop =
      some (before ++ b :: middle ++ a :: after) := by
  have hfront : before ++ a :: middle ++ b :: after = before ++ a :: (middle ++ b :: after) := by
    simp
  have hlast : charAt (before ++ a :: middle ++ b :: after) stop = some b :=
    charAt_append _ after b (by simp [hstop]; omega)
  have hfirst : charAt (before ++ a :: middle ++ b :: after) start = some a := by
    rw [hfront]
    exact charAt_append before _ a hstart
  have hset : (before ++ a :: middle ++ b :: after).set start.toNat b =
      before ++ b :: middle ++ b :: after := by
    rw [hfront, set_append before _ a b hstart]
    simp
  simp only [swap, hfirst, hlast, hset, Option.bind_eq_bind, Option.bind_some]
  rw [set_append _ after b a (by simp [hstop]; omega)]

/-- The loop reverses the part of the array between its indices. -/
theorem reverseLoop_part (before middle after : List Char) {start stop : Int}
    (hstart : start = before.length) (hstop : stop = before.length + middle.length - 1) :
    reverseLoop (before ++ middle ++ after) start stop =
      some (before ++ middle.reverse ++ after) := by
  induction middle using List.bidirectionalRec generalizing before after start stop with
  | nil =>
      rw [List.length_nil] at hstop
      rw [reverseLoop, if_neg (by omega), List.reverse_nil]
  | singleton c =>
      rw [List.length_singleton] at hstop
      rw [reverseLoop, if_neg (by omega), List.reverse_singleton]
  | cons_append a middle b ih =>
      rw [List.length_cons, List.length_append, List.length_singleton] at hstop
      have hshape : before ++ (a :: (middle ++ [b])) ++ after =
          before ++ a :: middle ++ b :: after := by simp
      have hfront : start + 1 = (before ++ [b]).length := by
        rw [List.length_append, List.length_singleton]
        omega
      have hnext : reverseLoop (before ++ [b] ++ middle ++ a :: after) (start + 1) (stop - 1) =
          some (before ++ [b] ++ middle.reverse ++ a :: after) := ih _ _ hfront (by omega)
      have hturned : before ++ b :: middle ++ a :: after =
          before ++ [b] ++ middle ++ a :: after := by simp
      rw [hshape, reverseLoop, if_pos (by omega),
        swap_ends before middle after a b hstart (by omega)]
      simp only [hturned, hnext]
      simp

/-- The loop does its turns one after the other. -/
theorem reverseLoop_eq_foldlM (str : List Char) (start stop : Int) :
    reverseLoop str start stop = (turns start stop).foldlM (fun str p => swap str p.1 p.2) str := by
  induction str, start, stop using reverseLoop.induct with
  | case1 str start stop hlt hswap =>
      rw [reverseLoop, turns, if_pos hlt, if_pos hlt, List.foldlM_cons, hswap]
      rfl
  | case2 str start stop hlt after hswap ih =>
      rw [reverseLoop, turns, if_pos hlt, if_pos hlt, List.foldlM_cons, hswap]
      exact ih
  | case3 str start stop hlt =>
      rw [reverseLoop, turns, if_neg hlt, if_neg hlt]
      rfl

/-- The call swaps what is at these places, one pair after the other. -/
theorem reverseString_eq_foldlM (t rest : List Char) (ht : nul ∉ t)
    (hint : intOf t.length ≠ intMin) :
    reverseString (t ++ nul :: rest) =
      (swapped (t ++ nul :: rest)).foldlM (fun str p => swap str p.1 p.2) (t ++ nul :: rest) := by
  rw [reverseString, swapped, text_plain t rest ht]
  simp only [if_neg hint, reverseLoop_eq_foldlM]

theorem between_of_mem_turns {start stop : Int} {p : Int × Int} (h : p ∈ turns start stop) :
    start ≤ p.1 ∧ p.1 < p.2 ∧ p.2 ≤ stop := by
  induction start, stop using turns.induct with
  | case1 start stop hlt ih =>
      rw [turns, if_pos hlt] at h
      cases List.mem_cons.mp h with
      | inl hfirst =>
          rw [hfirst]
          exact ⟨Int.le_refl _, hlt, Int.le_refl _⟩
      | inr hnext =>
          have hinner := ih hnext
          omega
  | case2 start stop hlt =>
      rw [turns, if_neg hlt] at h
      cases h

theorem intOf_of_le {n : Nat} (h : n ≤ intMax) : intOf n = n := by
  simp only [intMax] at h
  unfold intOf
  exact Int.bmod_eq_of_le_mul_two (by omega) (by omega)

theorem intOf_le (n : Nat) : intOf n ≤ n := by
  have hmod := Int.bmod_def n 4294967296
  unfold intOf
  omega

theorem reached_le (t : List Char) : reached t ≤ t.length := by
  have hle := intOf_le t.length
  rw [reached]
  omega

theorem reached_of_le {t : List Char} (h : t.length ≤ intMax) : reached t = t.length := by
  rw [reached, intOf_of_le h, Int.toNat_natCast]

theorem intOf_ne_intMin {t : List Char} (h : t.length ≤ intMax) : intOf t.length ≠ intMin := by
  rw [intOf_of_le h]
  unfold intMin
  omega

/-- The loop reverses the front of the array up to its second index. -/
theorem reverseLoop_front (str : List Char) {k : Nat} {stop : Int} (hk : k ≤ str.length)
    (hstop : stop = k - 1) :
    reverseLoop str 0 stop = some ((str.take k).reverse ++ str.drop k) := by
  have hlength : (str.take k).length = k := by
    rw [List.length_take, Nat.min_eq_left hk]
  have hloop : reverseLoop ([] ++ str.take k ++ str.drop k) 0 stop =
      some ([] ++ (str.take k).reverse ++ str.drop k) :=
    reverseLoop_part [] _ _ rfl (by simp [hlength, hstop])
  simpa only [List.nil_append, List.take_append_drop] using hloop

/-- What is reached of the string comes out reversed, and everything behind it stays. -/
theorem reverseString_eq (t rest : List Char) (ht : nul ∉ t) (hint : intOf t.length ≠ intMin) :
    reverseString (t ++ nul :: rest) = some (turned t ++ nul :: rest) := by
  have hk := reached_le t
  rw [reverseString, text_plain t rest ht]
  simp only [if_neg hint]
  by_cases hneg : intOf t.length < 0
  · have hnone : reached t = 0 := by
      rw [reached]
      omega
    rw [reverseLoop, if_neg (by omega), turned, hnone]
    simp
  · have hstop : intOf t.length - 1 = (reached t : Int) - 1 := by
      rw [reached]
      omega
    rw [reverseLoop_front _ (by simp; omega) hstop, List.take_append_of_le_length hk,
      List.drop_append_of_le_length hk, turned, List.append_assoc]

theorem turned_of_le {t : List Char} (h : t.length ≤ intMax) : turned t = t.reverse := by
  rw [turned, reached_of_le h, List.take_length, List.drop_length, List.append_nil]

theorem length_turned (t : List Char) : (turned t).length = t.length := by
  have hk := reached_le t
  simp only [turned, List.length_append, List.length_reverse, List.length_take, List.length_drop]
  omega

theorem nul_not_mem_turned {t : List Char} (ht : nul ∉ t) : nul ∉ turned t := by
  intro h
  cases List.mem_append.mp h with
  | inl hfront => exact ht (List.mem_of_mem_take (List.mem_reverse.mp hfront))
  | inr hback => exact ht (List.mem_of_mem_drop hback)

/-- The loop does the same turns on what it has made of the string. -/
theorem turned_turned (t : List Char) : turned (turned t) = t := by
  have hlength : (t.take (reached t)).reverse.length = reached t := by
    rw [List.length_reverse, List.length_take, Nat.min_eq_left (reached_le t)]
  have hreached : reached (turned t) = reached t := by
    rw [reached, length_turned, reached]
  rw [turned, hreached, turned, List.take_left' hlength, List.drop_left' hlength,
    List.reverse_reverse, List.take_append_drop]

theorem turned_eq_reverse_iff (t : List Char) :
    turned t = t.reverse ↔ (t.drop (reached t)).reverse ++ t.take (reached t) = t := by
  rw [← List.reverse_eq_iff, turned, List.reverse_append, List.reverse_reverse]

/-- The string comes out reversed, and what follows its terminator stays. -/
theorem reverseString_text (t rest : List Char) (ht : nul ∉ t) (hint : t.length ≤ intMax) :
    reverseString (t ++ nul :: rest) = some (t.reverse ++ nul :: rest) := by
  rw [reverseString_eq t rest ht (intOf_ne_intMin hint), turned_of_le hint]

theorem reverseString_overflow (t rest : List Char) (ht : nul ∉ t)
    (hint : intOf t.length = intMin) : reverseString (t ++ nul :: rest) = none := by
  rw [reverseString, text_plain t rest ht]
  simp only [if_pos hint]

theorem swapped_inside (t rest : List Char) (ht : nul ∉ t) :
    ∀ p ∈ swapped (t ++ nul :: rest),
      (0 ≤ p.1 ∧ p.1 < t.length) ∧ (0 ≤ p.2 ∧ p.2 < t.length) := by
  intro p hp
  rw [swapped, text_plain t rest ht] at hp
  have hbetween := between_of_mem_turns hp
  have hle := intOf_le t.length
  omega

/-- A string is reversed in place exactly when its length is an `int`, or it looks the same
although not all of it is reached. -/
theorem reverses_iff_measured (t rest : List Char) (ht : nul ∉ t) :
    Reverses t rest ↔ Measured t := by
  by_cases hint : intOf t.length = intMin
  · refine iff_of_false (fun h => ?_) fun h => ?_
    · have hreversed := h.reversed
      rw [reverseString_overflow t rest ht hint] at hreversed
      cases hreversed
    · cases h with
      | inl hle => exact intOf_ne_intMin hle hint
      | inr hsame => exact hsame.1 hint
  · have hrun := reverseString_eq t rest ht hint
    constructor
    · intro h
      have hreversed := h.reversed
      rw [hrun, Option.some.injEq, List.append_cancel_right_eq] at hreversed
      exact .inr ⟨hint, (turned_eq_reverse_iff t).mp hreversed⟩
    · intro h
      have hturned : turned t = t.reverse := by
        cases h with
        | inl hle => exact turned_of_le hle
        | inr hsame => exact (turned_eq_reverse_iff t).mpr hsame.2
      refine ⟨by rw [hrun, hturned], ?_, swapped_inside t rest ht⟩
      have hagain : intOf (turned t).length ≠ intMin := by rwa [length_turned]
      rw [hrun, Option.bind_some, reverseString_eq _ rest (nul_not_mem_turned ht) hagain,
        turned_turned]

theorem reverses_iff_measured_abc : Reverses "abc".toList "xyz".toList :=
  (reverses_iff_measured "abc".toList "xyz".toList (by decide)).mpr (.inl (by decide))

/-- The length is negative as an `int`, and the loop makes no turn. -/
theorem long_string_stays :
    reverseString ('a' :: List.replicate 2147483648 'b' ++ [nul]) =
        some ('a' :: List.replicate 2147483648 'b' ++ [nul]) ∧
      ¬ Reverses ('a' :: List.replicate 2147483648 'b') [] := by
  obtain ⟨n, hn⟩ : ∃ n, n + 1 = 2147483648 := ⟨2147483647, rfl⟩
  rw [← hn]
  have hint : intOf ('a' :: List.replicate (n + 1) 'b').length = -2147483647 := by
    have hlength : ('a' :: List.replicate (n + 1) 'b').length = 2147483649 := by
      simp only [List.length_cons, List.length_replicate]
      omega
    rw [hlength]
    decide
  have hplain : nul ∉ 'a' :: List.replicate (n + 1) 'b' := by
    intro h
    cases List.mem_cons.mp h with
    | inl ha => exact absurd ha (by decide)
    | inr hb => exact absurd (List.eq_of_mem_replicate hb) (by decide)
  have hstays : turned ('a' :: List.replicate (n + 1) 'b') = 'a' :: List.replicate (n + 1) 'b' := by
    rw [turned, reached, hint]
    rfl
  have hrun : reverseString ('a' :: List.replicate (n + 1) 'b' ++ [nul]) =
      some ('a' :: List.replicate (n + 1) 'b' ++ [nul]) := by
    rw [reverseString_eq _ [] hplain (by rw [hint]; decide), hstays]
  refine ⟨hrun, fun h => ?_⟩
  have hreversed := h.reversed
  rw [hrun, Option.some.injEq, List.append_cancel_right_eq, List.reverse_cons,
    List.reverse_replicate, List.replicate_succ] at hreversed
  exact absurd (List.cons.inj hreversed).1 (by decide)

end LinuxTraining.Socket
