import Mathlib.Algebra.Group.Int.Defs
import Mathlib.Algebra.GroupWithZero.Nat
import Mathlib.Data.List.Basic
import Mathlib.Data.List.DropRight
import Mathlib.Data.List.TakeWhile
import Mathlib.Tactic.Common

/-!
Formatted text: the part of `printf`, `scanf` and `fgets` that line-oriented
programs use. Texts are lists of characters. Numbers are unbounded here; a
program with bounded ones says where they stay in range.
-/
namespace Stdio

def printInt (n : Int) : List Char :=
  if n < 0 then '-' :: Nat.toDigits 10 n.natAbs else Nat.toDigits 10 n.natAbs

def isSpace (c : Char) : Bool :=
  c = ' ' || c = '\t' || c = '\n' || c = '\x0b' || c = '\x0c' || c = '\r'

def scanDigits (input : List Char) : Option (Nat × List Char) :=
  let digits := input.takeWhile Char.isDigit
  if digits = [] then none
  else some (Nat.ofDigitChars 10 digits 0, input.dropWhile Char.isDigit)

/-- The `%d` conversion of `scanf`: spaces, a sign, digits. -/
def scanInt (input : List Char) : Option (Int × List Char) :=
  match input.dropWhile isSpace with
  | '-' :: rest => (scanDigits rest).map fun (n, rest) => (-(n : Int), rest)
  | '+' :: rest => (scanDigits rest).map fun (n, rest) => ((n : Int), rest)
  | rest => (scanDigits rest).map fun (n, rest) => ((n : Int), rest)

/-- `atoi`: the number at the front of the text as a `long`, with the nearest one in range for
one that is not, cut to an `int`. Without a number it is 0. -/
def atoi (nptr : List Char) : Int :=
  match scanInt nptr with
  | some (n, _) => (max (-2 ^ 63) (min (2 ^ 63 - 1) n)).bmod (2 ^ 32)
  | none => 0

inductive Directive where
  | literal (c : Char)
  | space
  | int (store : Bool)
  | before (stop : Char)
  | word

inductive Value where
  | int (n : Int)
  | text (t : List Char)
  deriving DecidableEq

/-- The values that `sscanf` stores before the first directive that fails. A space of
the format is `space`; `%d` and `%*d` are `int`, `%[^c]` is `before c` and `%s` is
`word`. -/
def sscanf : List Directive → List Char → List Value
  | [], _ => []
  | .literal _ :: _, [] => []
  | .literal c :: format, c' :: rest => if c' = c then sscanf format rest else []
  | .space :: format, input => sscanf format (input.dropWhile isSpace)
  | .int store :: format, input =>
      match scanInt input with
      | none => []
      | some (n, rest) =>
          if store then .int n :: sscanf format rest else sscanf format rest
  | .before stop :: format, input =>
      if input.takeWhile (fun c => c ≠ stop) = [] then []
      else
        .text (input.takeWhile fun c => c ≠ stop) ::
          sscanf format (input.dropWhile fun c => c ≠ stop)
  | .word :: format, input =>
      if (input.dropWhile isSpace).takeWhile (fun c => !isSpace c) = [] then []
      else
        .text ((input.dropWhile isSpace).takeWhile fun c => !isSpace c) ::
          sscanf format ((input.dropWhile isSpace).dropWhile fun c => !isSpace c)

/-- `fgets` with room for `room` characters and the terminator: what it stores, and
what is left of the file. -/
def fgets : (room : Nat) → List Char → List Char × List Char
  | 0, text => ([], text)
  | _ + 1, [] => ([], [])
  | room + 1, c :: rest =>
      if c = '\n' then ([c], rest)
      else
        let (line, rest) := fgets room rest
        (c :: line, rest)

theorem scanDigits_toDigits (n : Nat) {rest : List Char}
    (hrest : ∀ c ∈ rest.head?, c.isDigit = false) :
    scanDigits (Nat.toDigits 10 n ++ rest) = some (n, rest) := by
  have hdigit : ∀ c ∈ Nat.toDigits 10 n, c.isDigit = true := fun c hc =>
    Nat.isDigit_of_mem_toDigits (by decide) (by decide) hc
  have hnone : rest.takeWhile Char.isDigit = [] := by
    cases rest with
    | nil => rfl
    | cons c rest => simp [hrest c (by simp)]
  have hall : rest.dropWhile Char.isDigit = rest := by
    cases rest with
    | nil => rfl
    | cons c rest => simp [hrest c (by simp)]
  have hfront : (Nat.toDigits 10 n ++ rest).takeWhile Char.isDigit = Nat.toDigits 10 n := by
    rw [List.takeWhile_append_of_pos hdigit, hnone, List.append_nil]
  have hback : (Nat.toDigits 10 n ++ rest).dropWhile Char.isDigit = rest := by
    rw [List.dropWhile_append_of_pos hdigit, hall]
  simp only [scanDigits, hfront, hback, Nat.toDigits_ne_nil, if_false,
    Nat.ofDigitChars_ten_toDigits]

theorem toDigits_head (n : Nat) :
    ∃ c cs, Nat.toDigits 10 n = c :: cs ∧ c.isDigit = true := by
  cases h : Nat.toDigits 10 n with
  | nil => exact absurd h Nat.toDigits_ne_nil
  | cons c cs =>
      refine ⟨c, cs, rfl, Nat.isDigit_of_mem_toDigits (b := 10) (n := n) (by decide) (by decide) ?_⟩
      rw [h]
      exact List.mem_cons_self

theorem digit_ne {c d : Char} (h : c.isDigit = true) (hd : d.isDigit = false) : c ≠ d := by
  rintro rfl
  rw [h] at hd
  cases hd

theorem digit_not_special {c : Char} (h : c.isDigit = true) :
    isSpace c = false ∧ c ≠ '-' ∧ c ≠ '+' := by
  have hother : ∀ d : Char, d.isDigit = false → c ≠ d := fun _ => digit_ne h
  refine ⟨?_, hother _ (by decide), hother _ (by decide)⟩
  simp only [isSpace, Bool.or_eq_false_iff, decide_eq_false_iff_not]
  exact ⟨⟨⟨⟨⟨hother _ (by decide), hother _ (by decide)⟩, hother _ (by decide)⟩,
    hother _ (by decide)⟩, hother _ (by decide)⟩, hother _ (by decide)⟩

/-- What `%i` printed, `%d` reads back. -/
theorem scanInt_printInt (n : Int) (rest : List Char)
    (hrest : ∀ c ∈ rest.head?, c.isDigit = false) :
    scanInt (printInt n ++ rest) = some (n, rest) := by
  by_cases hneg : n < 0
  · have hdrop : (printInt n ++ rest).dropWhile isSpace =
        '-' :: (Nat.toDigits 10 n.natAbs ++ rest) := by
      simp [printInt, hneg, isSpace]
    simp only [scanInt, hdrop, scanDigits_toDigits n.natAbs hrest, Option.map_some,
      Option.some.injEq, Prod.mk.injEq, and_true]
    omega
  · obtain ⟨c, cs, hdigits, hc⟩ := toDigits_head n.natAbs
    obtain ⟨hspace, hminus, hplus⟩ := digit_not_special hc
    have hdrop : (printInt n ++ rest).dropWhile isSpace =
        Nat.toDigits 10 n.natAbs ++ rest := by
      simp [printInt, hneg, hdigits, hspace]
    have hscan := scanDigits_toDigits n.natAbs hrest
    rw [hdigits] at hdrop hscan
    have habs : ((n.natAbs : Nat) : Int) = n := by omega
    simp only [scanInt, hdrop, List.cons_append] at hscan ⊢
    split
    · rename_i h
      exact absurd (List.cons.inj h).1 hminus
    · rename_i h
      exact absurd (List.cons.inj h).1 hplus
    · rw [hscan, Option.map_some, habs]

theorem scanInt_skip (input : List Char) :
    scanInt (input.dropWhile isSpace) = scanInt input := by
  simp only [scanInt, List.dropWhile_idempotent]

theorem scanInt_space {c : Char} (hc : isSpace c = true) (input : List Char) :
    scanInt (c :: input) = scanInt input := by
  simp only [scanInt, List.dropWhile_cons, hc, if_true]

theorem printInt_chars (n : Int) : ∀ c ∈ printInt n, c = '-' ∨ c.isDigit = true := by
  have hdigits : ∀ c ∈ Nat.toDigits 10 n.natAbs, c.isDigit = true := fun c hc =>
    Nat.isDigit_of_mem_toDigits (by decide) (by decide) hc
  intro c hc
  unfold printInt at hc
  split at hc
  · cases List.mem_cons.mp hc with
    | inl hsame =>
        subst hsame
        exact .inl rfl
    | inr hc =>
        exact .inr (hdigits c hc)
  · exact .inr (hdigits c hc)

/-- No number prints a separator. -/
theorem printInt_avoids (n : Int) {d : Char} (hminus : d ≠ '-') (hdigit : d.isDigit = false) :
    ∀ c ∈ printInt n, c ≠ d := by
  rintro c hc rfl
  cases printInt_chars n c hc with
  | inl h =>
      exact hminus h
  | inr h =>
      rw [hdigit] at h
      cases h

/-- A number of at most 32 bits prints in at most eleven characters. -/
theorem printInt_length {n : Int} (h : n.natAbs < 10 ^ 10) : (printInt n).length ≤ 11 := by
  have hlen := (Nat.length_toDigits_le_iff (b := 10) (n := n.natAbs) (k := 10) (by decide)
    (by decide)).mpr h
  unfold printInt
  split
  · rw [List.length_cons]
    omega
  · omega

theorem sscanf_word (word rest : List Char) (format : List Directive) :
    sscanf (word.map .literal ++ format) (word ++ rest) = sscanf format rest := by
  induction word with
  | nil => rfl
  | cons c word ih => simpa [sscanf] using ih

/-- A word that does not stand at the front of the input stops the scan. -/
theorem sscanf_mismatch {word input : List Char} (format : List Directive)
    (h : ¬ word <+: input) : sscanf (word.map .literal ++ format) input = [] := by
  induction word generalizing input with
  | nil => exact absurd (List.nil_prefix) h
  | cons c word ih =>
      cases input with
      | nil => rfl
      | cons d rest =>
          by_cases hc : d = c
          · have hrest : ¬ word <+: rest := fun hrest => h (by
              rw [hc]
              exact (List.prefix_cons_inj c).mpr hrest)
            simpa [sscanf, hc] using ih hrest
          · simp [sscanf, hc]

/-- `fgets` loses no character. -/
theorem fgets_append (room : Nat) (text : List Char) :
    (fgets room text).1 ++ (fgets room text).2 = text := by
  induction room generalizing text with
  | zero => rfl
  | succ room ih =>
      cases text with
      | nil => rfl
      | cons c rest =>
          by_cases hc : c = '\n'
          · simp [fgets, hc]
          · simpa [fgets, hc] using ih rest

theorem length_fgets (room : Nat) (text : List Char) : (fgets room text).1.length ≤ room := by
  induction room generalizing text with
  | zero => exact Nat.le_refl 0
  | succ room ih =>
      cases text with
      | nil => exact Nat.zero_le _
      | cons c rest =>
          by_cases hc : c = '\n'
          · simp [fgets, hc]
          · simpa [fgets, hc] using ih rest

/-- `fgets` takes a whole line that fits. -/
theorem fgets_line {line : List Char} (rest : List Char) {room : Nat}
    (hplain : ∀ c ∈ line, c ≠ '\n')
    (hroom : line.length < room) : fgets room (line ++ '\n' :: rest) = (line ++ ['\n'], rest) := by
  induction line generalizing room with
  | nil =>
      cases room with
      | zero => exact absurd hroom (Nat.lt_irrefl 0)
      | succ room => rfl
  | cons c line ih =>
      cases room with
      | zero => exact absurd hroom (Nat.not_lt_zero _)
      | succ room =>
          have hc := hplain c List.mem_cons_self
          have hshort : line.length < room := by simpa using hroom
          have htail := ih (fun d hd => hplain d (List.mem_cons_of_mem _ hd)) hshort
          simp only [List.cons_append, fgets, hc, if_false, htail]

/-- A word without a newline stands at the front of what `fgets` takes, if it does at all. -/
theorem prefix_fgets {word : List Char} (room : Nat) (text : List Char) (hplain : '\n' ∉ word)
    (hroom : word.length ≤ room) : word <+: (fgets room text).1 ↔ word <+: text := by
  induction room generalizing word text with
  | zero =>
      have hempty : word = [] := List.eq_nil_of_length_eq_zero (Nat.le_zero.mp hroom)
      simp [hempty]
  | succ room ih =>
      cases text with
      | nil => rfl
      | cons c rest =>
          cases word with
          | nil => simp
          | cons d word =>
              have hd : '\n' ≠ d := List.ne_of_not_mem_cons hplain
              have hword : '\n' ∉ word := List.not_mem_of_not_mem_cons hplain
              by_cases hc : c = '\n'
              · simp [fgets, hc, Ne.symm hd]
              · simp only [fgets, hc, if_false, List.cons_prefix_cons]
                rw [ih rest hword (by simpa using hroom)]

end Stdio
