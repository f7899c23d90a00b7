import LinuxTraining.Library.Stdio

/-!
`validate_num_input` of `file_handling.c` with its flag set, the way all prompts call it:
it asks again until a whole number is typed. A word is what `scanf` finds between two
white spaces.
-/
namespace LinuxTraining.MatrixProduct
open Stdio

/-- `input_string` after `"%19s"`, up to its terminator. -/
def inputString (word : List Char) : List Char :=
  (word.take 19).takeWhile fun c => c ≠ '\x00'

def llongMax : Int := 2 ^ 63 - 1

def llongMin : Int := -2 ^ 63

/-- `strtoll` for decimal numbers: the number, with the nearest one in range for one that
is not, and what follows it. `none`: there is no number, and `p_end` is the string. -/
def strtoll (string : List Char) : Option (Int × List Char) :=
  (scanInt string).map fun (n, rest) => (max llongMin (min n llongMax), rest)

def acceptedNumber (word : List Char) : Option Nat :=
  match strtoll (inputString word) with
  | some (intPart, []) => if 0 ≤ intPart then some intPart.toNat else none
  | some (_, _ :: _) | none => none

/-- `typed` are the words of the loop's turns; `none` says that the loop goes on. The
`double` that is returned holds every number that fits into an `int`. -/
def validateNumInput (typed : List (List Char)) : Option Nat := typed.findSome? acceptedNumber

/-- The conversion of the returned number to `int`; outside the range it is undefined. -/
def toInt (input : Nat) : Option Nat := if input < 2 ^ 31 then some input else none

def intMax : Nat := 2 ^ 31 - 1

/-- The `double` nearest to a number, the even one of two. -/
def toDouble (n : Nat) : Nat :=
  if n < 2 ^ 53 then n
  else
    let unit := 2 ^ (n.log2 - 52)
    let rest := n % unit
    if unit < 2 * rest ∨ 2 * rest = unit ∧ n / unit % 2 = 1 then (n / unit + 1) * unit
    else n / unit * unit

/-- The `int` in which a caller of `validate_num_input` stores the number; `none`: it is not
defined, or the user is asked again. -/
def storedInt (word : List Char) : Option Nat :=
  (acceptedNumber word).bind fun input => toInt (toDouble input)

def wholeDigits (digits : List Char) : Option Nat :=
  if digits ≠ [] ∧ digits.all Char.isDigit then some (Nat.ofDigitChars 10 digits 0) else none

def denotes : List Char → Option Int
  | '-' :: digits => (wholeDigits digits).map fun n : Nat => -(n : Int)
  | '+' :: digits => (wholeDigits digits).map fun n : Nat => (n : Int)
  | digits => (wholeDigits digits).map fun n : Nat => (n : Int)

/-- A token is accepted if it denotes a number that an `int` can hold, and stored as it. -/
structure TokenRead (token : List Char) : Prop where
  accepted : (acceptedNumber token).isSome ↔ ∃ n : Nat, denotes token = some (n : Int) ∧ n ≤ intMax
  stored : (acceptedNumber token).isSome →
    ∃ n : Nat, storedInt token = some n ∧ denotes token = some (n : Int)

/-- The token is read whole and is no number above `INT_MAX`, or what `"%19s"` leaves of it
changes nothing: the number is 0, or its front is no number that is accepted. -/
def ReadsWhole (token : List Char) : Prop :=
  if inputString token = token then ∀ n : Nat, denotes token = some (n : Int) → n ≤ intMax
  else denotes token = some 0 ∨ ∀ n : Nat, denotes (inputString token) ≠ some (n : Int)

variable {word token digits more : List Char} {n : Nat}

theorem toDouble_small (h : n < 2 ^ 53) : toDouble n = n := if_pos h

/-- Rounding does not go below a power of two. -/
theorem toDouble_large (h : 2 ^ 53 ≤ n) : 2 ^ 53 ≤ toDouble n := by
  have hn : n ≠ 0 := by omega
  have hlog : 53 ≤ n.log2 := (Nat.le_log2 hn).mpr h
  have hunit : 2 ^ n.log2 = 2 ^ 52 * 2 ^ (n.log2 - 52) := by
    rw [← Nat.pow_add]
    congr 1
    omega
  have hquotient : 2 ^ 52 ≤ n / 2 ^ (n.log2 - 52) := by
    rw [Nat.le_div_iff_mul_le (Nat.two_pow_pos _), ← hunit]
    exact Nat.log2_self_le hn
  have htwo : 2 ≤ 2 ^ (n.log2 - 52) := by
    have hpow : 2 ^ 1 ≤ 2 ^ (n.log2 - 52) := Nat.pow_le_pow_right (by decide) (by omega)
    exact hpow
  have hdown : 2 ^ 53 ≤ n / 2 ^ (n.log2 - 52) * 2 ^ (n.log2 - 52) :=
    Nat.mul_le_mul hquotient htwo
  simp only [toDouble, if_neg (Nat.not_lt.mpr h)]
  split
  · exact Nat.le_trans hdown (Nat.mul_le_mul_right _ (Nat.le_succ _))
  · exact hdown

/-- No number comes into the range of `int` by rounding. -/
theorem toInt_toDouble (n : Nat) : toInt (toDouble n) = if n ≤ intMax then some n else none := by
  by_cases hsmall : n < 2 ^ 53
  · rw [toDouble_small hsmall, toInt]
    by_cases hint : n ≤ intMax
    · rw [if_pos hint, if_pos (Nat.lt_of_le_of_lt hint (by decide))]
    · rw [if_neg hint, if_neg (by simp only [intMax] at hint; omega)]
  · have hlarge := toDouble_large (Nat.not_lt.mp hsmall)
    rw [toInt, if_neg (by omega), if_neg (by simp only [intMax]; omega)]

theorem scanDigits_whole : scanDigits digits = some (n, []) ↔ wholeDigits digits = some n := by
  by_cases hall : digits.all Char.isDigit = true
  · have hdigit : ∀ c ∈ digits, c.isDigit = true := List.all_eq_true.mp hall
    have htake : digits.takeWhile Char.isDigit = digits := List.takeWhile_eq_self_iff.mpr hdigit
    have hdrop : digits.dropWhile Char.isDigit = [] := List.dropWhile_eq_nil_iff.mpr hdigit
    by_cases hempty : digits = []
    · simp [scanDigits, wholeDigits, hempty]
    · simp [scanDigits, wholeDigits, htake, hdrop, hempty, hall]
  · have hdrop : digits.dropWhile Char.isDigit ≠ [] := fun hdrop =>
      hall (List.all_eq_true.mpr (List.dropWhile_eq_nil_iff.mp hdrop))
    have hnone : wholeDigits digits = none := if_neg fun h => hall h.2
    rw [hnone, scanDigits]
    split
    · simp
    · simp [hdrop]

/-- A number that ends with its text; the word has no white space to skip. -/
theorem scanInt_whole (hspace : ∀ c ∈ word, isSpace c = false) {value : Int} :
    scanInt word = some (value, []) ↔ denotes word = some value := by
  have hdrop : word.dropWhile isSpace = word := by
    cases word with
    | nil => rfl
    | cons c rest => simp [hspace c List.mem_cons_self]
  rw [scanInt, hdrop]
  unfold denotes
  split <;> simp [← scanDigits_whole]

theorem mem_inputString {c : Char} (h : c ∈ inputString word) : c ∈ word :=
  List.mem_of_mem_take ((List.takeWhile_prefix _).subset h)

/-- The warning is kept back for what `"%19s"` left, if that is a number from 0 on;
`strtoll` puts its greatest number for one that is out of range. -/
theorem acceptedNumber_eq_some_iff (hspace : ∀ c ∈ word, isSpace c = false) {input : Nat} :
    acceptedNumber word = some input ↔
      ∃ n : Nat, denotes (inputString word) = some (n : Int) ∧ min n (2 ^ 63 - 1) = input := by
  have hread := @scanInt_whole (inputString word) fun c hc => hspace c (mem_inputString hc)
  simp only [← hread]
  rw [acceptedNumber, strtoll]
  cases scanInt (inputString word) with
  | none => simp
  | some read =>
    obtain ⟨value, rest⟩ := read
    cases rest with
    | cons c rest => simp
    | nil =>
      simp only [Option.map_some, Option.some.injEq, Prod.mk.injEq, and_true]
      have hmax : llongMax = 2 ^ 63 - 1 := rfl
      have hmin : llongMin = -2 ^ 63 := rfl
      constructor
      · intro h
        split at h
        · next hpos =>
          have hinput := Option.some.inj h
          refine ⟨value.toNat, ?_, ?_⟩ <;> omega
        · cases h
      · rintro ⟨n, rfl, rfl⟩
        rw [if_pos (by omega)]
        congr 1
        omega

theorem acceptedNumber_isSome_iff (hspace : ∀ c ∈ word, isSpace c = false) :
    (acceptedNumber word).isSome ↔ ∃ n : Nat, denotes (inputString word) = some (n : Int) := by
  rw [Option.isSome_iff_exists]
  constructor
  · rintro ⟨input, h⟩
    obtain ⟨n, hn, -⟩ := (acceptedNumber_eq_some_iff hspace).mp h
    exact ⟨n, hn⟩
  · rintro ⟨n, hn⟩
    exact ⟨_, (acceptedNumber_eq_some_iff hspace).mpr ⟨n, hn, rfl⟩⟩

/-- Saturation and rounding keep a number out of the range of `int`, and change none in it. -/
theorem storedInt_eq_some_iff (hspace : ∀ c ∈ word, isSpace c = false) :
    storedInt word = some n ↔ denotes (inputString word) = some (n : Int) ∧ n ≤ intMax := by
  simp only [storedInt, Option.bind_eq_some_iff, toInt_toDouble]
  constructor
  · rintro ⟨input, haccepted, hstored⟩
    obtain ⟨m, hm, rfl⟩ := (acceptedNumber_eq_some_iff hspace).mp haccepted
    split at hstored
    · next hint =>
      cases hstored
      have hsame : min m (2 ^ 63 - 1) = m := by
        simp only [intMax] at hint
        omega
      rw [hsame] at hint ⊢
      exact ⟨hm, hint⟩
    · cases hstored
  · rintro ⟨hn, hint⟩
    have hsame : min n (2 ^ 63 - 1) = n := by
      simp only [intMax] at hint
      omega
    exact ⟨n, (acceptedNumber_eq_some_iff hspace).mpr ⟨n, hn, hsame⟩, if_pos hint⟩

theorem wholeDigits_eq_some_iff : wholeDigits digits = some n ↔
    (digits ≠ [] ∧ ∀ c ∈ digits, c.isDigit = true) ∧ Nat.ofDigitChars 10 digits 0 = n := by
  rw [wholeDigits, ← List.all_eq_true]
  by_cases h : digits ≠ [] ∧ digits.all Char.isDigit = true
  · rw [if_pos h, Option.some.injEq, and_iff_right h]
  · rw [if_neg h]
    constructor
    · intro hnone
      cases hnone
    · intro hsome
      exact absurd hsome.1 h

theorem wholeDigits_front (hdigits : digits ≠ []) (h : wholeDigits (digits ++ more) = some n) :
    ∃ m, wholeDigits digits = some m ∧ m * 10 ^ more.length ≤ n := by
  obtain ⟨⟨-, hall⟩, hvalue⟩ := wholeDigits_eq_some_iff.mp h
  refine ⟨Nat.ofDigitChars 10 digits 0, wholeDigits_eq_some_iff.mpr
    ⟨⟨hdigits, fun c hc => hall c (List.mem_append_left _ hc)⟩, rfl⟩, ?_⟩
  rw [Nat.ofDigitChars_append, Nat.ofDigitChars_eq_ofDigitChars_zero] at hvalue
  rw [← hvalue, Nat.mul_comm]
  exact Nat.le_add_right _ _

theorem denotes_unsigned {c : Char} (hminus : c ≠ '-') (hplus : c ≠ '+') :
    denotes (c :: digits) = (wholeDigits (c :: digits)).map fun n : Nat => (n : Int) := by
  unfold denotes
  split
  · next heq => exact absurd (List.cons.inj heq).1 hminus
  · next heq => exact absurd (List.cons.inj heq).1 hplus
  · rfl

/-- The front of a number is a number, and as many digits shorter as are left out. -/
theorem denotes_front (hlong : 2 ≤ token.length) (h : denotes (token ++ more) = some (n : Int)) :
    ∃ m : Nat, denotes token = some (m : Int) ∧ m * 10 ^ more.length ≤ n := by
  cases token with
  | nil => cases hlong
  | cons c rest =>
    have hrest : rest ≠ [] := by
      rintro rfl
      simp at hlong
    rw [List.cons_append] at h
    by_cases hminus : c = '-'
    · subst hminus
      obtain ⟨whole, hwhole, hvalue⟩ := Option.map_eq_some_iff.mp h
      obtain ⟨m, hm, hle⟩ := wholeDigits_front hrest hwhole
      have hzero : m = 0 := by
        have hpos : 0 < 10 ^ more.length := Nat.pow_pos (by decide)
        have hwhole : whole = 0 := by omega
        rw [hwhole, Nat.le_zero, Nat.mul_eq_zero] at hle
        exact hle.resolve_right hpos.ne'
      subst hzero
      refine ⟨0, ?_, by omega⟩
      rw [denotes, hm]
      rfl
    · by_cases hplus : c = '+'
      · subst hplus
        obtain ⟨whole, hwhole, hvalue⟩ := Option.map_eq_some_iff.mp h
        obtain ⟨m, hm, hle⟩ := wholeDigits_front hrest hwhole
        refine ⟨m, ?_, by omega⟩
        rw [denotes, hm]
        rfl
      · rw [denotes_unsigned hminus hplus] at h
        obtain ⟨whole, hwhole, hvalue⟩ := Option.map_eq_some_iff.mp h
        obtain ⟨m, hm, hle⟩ := wholeDigits_front (List.cons_ne_nil c rest) hwhole
        refine ⟨m, ?_, by omega⟩
        rw [denotes_unsigned hminus hplus, hm]
        rfl

theorem digits_of_denotes {value : Int} (h : denotes token = some value) :
    ∃ sign digits n, token = sign ++ digits ∧ (∀ c ∈ sign, c = '-' ∨ c = '+') ∧
      wholeDigits digits = some n := by
  unfold denotes at h
  split at h
  · next digits =>
    obtain ⟨n, hn, -⟩ := Option.map_eq_some_iff.mp h
    exact ⟨['-'], digits, n, rfl, by simp, hn⟩
  · next digits =>
    obtain ⟨n, hn, -⟩ := Option.map_eq_some_iff.mp h
    exact ⟨['+'], digits, n, rfl, by simp, hn⟩
  · obtain ⟨n, hn, -⟩ := Option.map_eq_some_iff.mp h
    exact ⟨[], token, n, rfl, by simp, hn⟩

theorem no_nul_of_denotes {value : Int} (h : denotes token = some value) :
    ∀ c ∈ token, c ≠ '\x00' := by
  obtain ⟨sign, digits, n, rfl, hsign, hdigits⟩ := digits_of_denotes h
  intro c hc
  cases List.mem_append.mp hc with
  | inl hc => cases hsign c hc with
    | inl hminus => exact hminus ▸ by decide
    | inr hplus => exact hplus ▸ by decide
  | inr hc => exact digit_ne ((wholeDigits_eq_some_iff.mp hdigits).1.2 c hc) rfl

/-- What is cut off a number leaves a number, which is less by the digits that are lost. -/
theorem inputString_front (hcut : inputString token ≠ token) (h : denotes token = some (n : Int)) :
    ∃ m lost : Nat, denotes (inputString token) = some (m : Int) ∧ m * 10 ^ (lost + 1) ≤ n := by
  have hnul := no_nul_of_denotes h
  have hfront : inputString token = token.take 19 :=
    List.takeWhile_eq_self_iff.mpr fun c hc => decide_eq_true (hnul c (List.mem_of_mem_take hc))
  have hlong : 19 < token.length := by
    by_contra hshort
    exact hcut (by rw [hfront, List.take_of_length_le (Nat.not_lt.mp hshort)])
  rw [← List.take_append_drop 19 token] at h
  obtain ⟨m, hm, hle⟩ := denotes_front (by rw [List.length_take]; omega) h
  refine ⟨m, token.length - 20, hfront ▸ hm, ?_⟩
  have hlost : (token.drop 19).length = token.length - 20 + 1 := by
    rw [List.length_drop]
    omega
  rwa [hlost] at hle

/-- A number as great as the one it is cut down to is 0. -/
theorem zero_of_front {lost : Nat} (h : n * 10 ^ (lost + 1) ≤ n) : n = 0 := by
  have hten : 10 ≤ 10 ^ (lost + 1) := Nat.le_self_pow (Nat.succ_ne_zero lost) 10
  have hmul : n * 10 ≤ n * 10 ^ (lost + 1) := Nat.mul_le_mul_left n hten
  omega

theorem denotes_unique {m : Nat} (hn : denotes token = some (n : Int))
    (hm : denotes token = some (m : Int)) : n = m := by
  rw [hn] at hm
  exact Int.ofNat_inj.mp (Option.some.inj hm)

/-- The prompts read a token right when it is read whole and is no number above `INT_MAX`, or
when what they read of it changes nothing. -/
theorem tokenRead_iff (hspace : ∀ c ∈ token, isSpace c = false) :
    TokenRead token ↔ ReadsWhole token := by
  rw [ReadsWhole]
  split
  · next hwhole =>
    have haccepted := acceptedNumber_isSome_iff hspace
    rw [hwhole] at haccepted
    constructor
    · intro hread n hn
      obtain ⟨m, hm, hint⟩ := hread.accepted.mp (haccepted.mpr ⟨n, hn⟩)
      rwa [denotes_unique hn hm]
    · intro hint
      refine ⟨?_, ?_⟩
      · rw [haccepted]
        exact exists_congr fun n => ⟨fun hn => ⟨hn, hint n hn⟩, And.left⟩
      · intro h
        obtain ⟨n, hn⟩ := haccepted.mp h
        have hstored := (congrArg denotes hwhole).trans hn
        exact ⟨n, (storedInt_eq_some_iff hspace).mpr ⟨hstored, hint n hn⟩, hn⟩
  · next hcut =>
    have haccepted := acceptedNumber_isSome_iff hspace
    constructor
    · intro hread
      by_cases hnumber : ∃ n : Nat, denotes (inputString token) = some (n : Int)
      · left
        obtain ⟨n, hstored, hn⟩ := hread.stored (haccepted.mpr hnumber)
        obtain ⟨m, lost, hm, hle⟩ := inputString_front hcut hn
        have hsame := denotes_unique ((storedInt_eq_some_iff hspace).mp hstored).1 hm
        rw [← hsame] at hle
        rw [hn, zero_of_front hle]
        rfl
      · right
        intro n hn
        exact hnumber ⟨n, hn⟩
    · intro hsafe
      cases hsafe with
      | inl hzero =>
        obtain ⟨m, lost, hm, hle⟩ := inputString_front hcut (n := 0) hzero
        have hm0 : m = 0 := by
          rw [Nat.le_zero, Nat.mul_eq_zero] at hle
          exact hle.resolve_right (Nat.pow_pos (by decide)).ne'
        rw [hm0] at hm
        refine ⟨?_, ?_⟩
        · exact ⟨fun _ => ⟨0, hzero, Nat.zero_le _⟩, fun _ => haccepted.mpr ⟨0, hm⟩⟩
        · intro _
          exact ⟨0, (storedInt_eq_some_iff hspace).mpr ⟨hm, Nat.zero_le _⟩, hzero⟩
      | inr hnone =>
        have hno : ¬(acceptedNumber token).isSome := fun h =>
          let ⟨n, hn⟩ := haccepted.mp h
          hnone n hn
        refine ⟨⟨fun h => absurd h hno, ?_⟩, fun h => absurd h hno⟩
        rintro ⟨n, hn, -⟩
        obtain ⟨m, lost, hm, -⟩ := inputString_front hcut hn
        exact absurd hm (hnone m)

theorem tokenRead_iff_zeros :
    TokenRead (List.replicate 30 '0') ↔ ReadsWhole (List.replicate 30 '0') :=
  tokenRead_iff fun c hc => by
    rw [List.eq_of_mem_replicate hc]
    rfl

/-- The first number above `INT_MAX` is accepted. -/
theorem above_intMax_accepted :
    (∀ c ∈ "2147483648".toList, isSpace c = false) ∧ ¬TokenRead "2147483648".toList := by
  have hspace : ("2147483648".toList.all fun c => !isSpace c) = true := by decide
  refine ⟨fun c hc => by simpa using List.all_eq_true.mp hspace c hc, fun hread => ?_⟩
  obtain ⟨n, hn, hint⟩ := hread.accepted.mp (by decide)
  have hvalue : denotes "2147483648".toList = some ((2147483648 : Nat) : Int) := by decide
  have hsame := denotes_unique hn hvalue
  rw [hsame] at hint
  exact absurd hint (by decide)

end LinuxTraining.MatrixProduct
