import LinuxTraining.Library.Stdio
import Mathlib.Data.List.Infix

/-!
Arithmetic expressions over integers, the texts they are written as, and a machine that reads
such a text from left to right as GNU bc does with scale 0: `*` and `/` bind tighter than `+`
and `-`, a minus sign before an operand binds tightest, and `--` is one token, which no
expression has. Long numbers may be broken over lines with a backslash.
-/
namespace Bc

def digitValue (c : Char) : Nat := c.toNat - '0'.toNat

inductive Numeral : Nat → List Char → Prop where
  | digit {c : Char} (digit : c.isDigit = true) : Numeral (digitValue c) [c]
  | more {n : Nat} {text : List Char} {c : Char} (front : Numeral n text)
      (digit : c.isDigit = true) : Numeral (10 * n + digitValue c) (text ++ [c])
  | broken {n : Nat} {text : List Char} {c : Char} (front : Numeral n text)
      (digit : c.isDigit = true) : Numeral (10 * n + digitValue c) (text ++ ['\\', '\n', c])

structure Literal where
  value : Nat
  text : List Char
  numeral : Numeral value text

def Literal.digit (c : Char) (digit : c.isDigit = true) : Literal :=
  ⟨digitValue c, [c], .digit digit⟩

inductive Kind where
  | factor
  | term
  | sum

/-- Expressions as the precedence of the operators shapes them; `before` and `behind` are
spaces. -/
inductive Expr : Kind → Type where
  | number (literal : Literal) : Expr .factor
  | group (e : Expr .sum) : Expr .factor
  | neg (e : Expr .factor) : Expr .factor
  | before (e : Expr .factor) : Expr .factor
  | behind (e : Expr .factor) : Expr .factor
  | factor (e : Expr .factor) : Expr .term
  | mul (a : Expr .term) (b : Expr .factor) : Expr .term
  | div (a : Expr .term) (b : Expr .factor) : Expr .term
  | term (e : Expr .term) : Expr .sum
  | add (a : Expr .sum) (b : Expr .term) : Expr .sum
  | sub (a : Expr .sum) (b : Expr .term) : Expr .sum

namespace Expr

def text : {k : Kind} → Expr k → List Char
  | _, .number literal => literal.text
  | _, .group e => '(' :: (e.text ++ [')'])
  | _, .neg e => '-' :: e.text
  | _, .before e => ' ' :: e.text
  | _, .behind e => e.text ++ [' ']
  | _, .factor e | _, .term e => e.text
  | _, .mul a b => a.text ++ '*' :: b.text
  | _, .div a b => a.text ++ '/' :: b.text
  | _, .add a b => a.text ++ '+' :: b.text
  | _, .sub a b => a.text ++ '-' :: b.text

/-- The value; `none`: a division by zero. -/
def value : {k : Kind} → Expr k → Option Int
  | _, .number literal => some literal.value
  | _, .neg e => e.value.map fun n => -n
  | _, .group e | _, .before e | _, .behind e | _, .factor e | _, .term e => e.value
  | _, .mul a b => a.value.bind fun m => b.value.bind fun n => some (m * n)
  | _, .div a b => a.value.bind fun m => b.value.bind fun n =>
      if n = 0 then none else some (m.tdiv n)
  | _, .add a b => a.value.bind fun m => b.value.bind fun n => some (m + n)
  | _, .sub a b => a.value.bind fun m => b.value.bind fun n => some (m - n)

def leads : {k : Kind} → Expr k → Bool
  | _, .number _ | _, .group _ | _, .before _ => false
  | _, .neg _ => true
  | _, .behind e | _, .factor e | _, .term e => e.leads
  | _, .mul a _ | _, .div a _ | _, .add a _ | _, .sub a _ => a.leads

def Clear : {k : Kind} → Expr k → Prop
  | _, .number _ => True
  | _, .neg e => e.leads = false ∧ e.Clear
  | _, .group e | _, .before e | _, .behind e | _, .factor e | _, .term e => e.Clear
  | _, .mul a b | _, .div a b | _, .add a b => a.Clear ∧ b.Clear
  | _, .sub a b => a.Clear ∧ b.leads = false ∧ b.Clear

end Expr

/-- What bc prints for a number, without the newline. -/
inductive Prints : Int → List Char → Prop where
  | unsigned (literal : Literal) : Prints literal.value literal.text
  | minus (literal : Literal) (pos : 0 < literal.value) :
      Prints (-literal.value) ('-' :: literal.text)

/-- What is done with the operands of a parenthesis: with the value of the next term, and,
before that, with the value of the next factor. -/
structure Level where
  sum : Int → Int
  factor : Int → Option Int

def Level.fresh : Level := ⟨id, some⟩

/-- Where the machine stands, the parentheses around it in `outer`: before an operand, with a
minus sign as the last character or not; in a number; in a number, behind a backslash; behind
an operand; at the end. -/
inductive State where
  | operand (outer : List Level) (level : Level) (dash : Bool)
  | digits (outer : List Level) (level : Level) (n : Nat)
  | broken (outer : List Level) (level : Level) (n : Nat)
  | after (outer : List Level) (sum : Int → Int) (term : Int)
  | done (n : Int)

open State

def afterStep (outer : List Level) (sum : Int → Int) (term : Int) (c : Char) : Option State :=
  match c, outer with
  | ' ', _ => some (after outer sum term)
  | '*', _ => some (operand outer ⟨sum, fun n => some (term * n)⟩ false)
  | '/', _ =>
      some (operand outer ⟨sum, fun n => if n = 0 then none else some (term.tdiv n)⟩ false)
  | '+', _ => some (operand outer ⟨fun n => sum term + n, some⟩ false)
  | '-', _ => some (operand outer ⟨fun n => sum term - n, some⟩ true)
  | ')', level :: outer => (level.factor (sum term)).map (after outer level.sum)
  | '\n', [] => some (done (sum term))
  | _, _ => none

def step : State → Char → Option State
  | operand outer level dash, c =>
      if c.isDigit then some (digits outer level (digitValue c))
      else
        match c with
        | ' ' => some (operand outer level false)
        | '(' => some (operand (level :: outer) .fresh false)
        | '-' =>
            if dash then none
            else some (operand outer ⟨level.sum, fun n => level.factor (-n)⟩ true)
        | _ => none
  | digits outer level n, c =>
      if c.isDigit then some (digits outer level (10 * n + digitValue c))
      else if c = '\\' then some (broken outer level n)
      else (level.factor n).bind fun term => afterStep outer level.sum term c
  | broken outer level n, c => if c = '\n' then some (digits outer level n) else none
  | after outer sum term, c => afterStep outer sum term c
  | done _, _ => none

def run (s : State) (input : List Char) : Option State := input.foldlM step s

/-- The number that the input, a line with its newline, stands for. -/
def evaluate (input : List Char) : Option Int :=
  match run (operand [] .fresh false) input with
  | some (done n) => some n
  | _ => none

variable {k : Kind} {s s' : State} {outer : List Level} {level : Level} {dash : Bool}
  {sum : Int → Int} {n : Nat} {v term : Int} {c : Char} {rest text : List Char}

@[simp] theorem run_nil (s : State) : run s [] = some s := rfl

theorem run_cons (s : State) (c : Char) (rest : List Char) :
    run s (c :: rest) = (step s c).bind fun s => run s rest := List.foldlM_cons

theorem run_append (s : State) (front back : List Char) :
    run s (front ++ back) = (run s front).bind fun s => run s back := List.foldlM_append

theorem step_operand_digit (h : c.isDigit = true) :
    step (operand outer level dash) c = some (digits outer level (digitValue c)) := if_pos h

theorem step_digits_digit (h : c.isDigit = true) :
    step (digits outer level n) c = some (digits outer level (10 * n + digitValue c)) := if_pos h

theorem run_numeral (h : Numeral n text) :
    run (operand outer level dash) text = some (digits outer level n) := by
  induction h with
  | digit hdigit => rw [run_cons, step_operand_digit hdigit, Option.bind_some, run_nil]
  | more front hdigit ih =>
      rw [run_append, ih, Option.bind_some, run_cons, step_digits_digit hdigit, Option.bind_some,
        run_nil]
  | @broken n text c front hdigit ih =>
      have hback : ∀ back, run (digits outer level n) ('\\' :: '\n' :: back) =
          run (digits outer level n) back := fun _ => rfl
      rw [run_append, ih, Option.bind_some, hback, run_cons, step_digits_digit hdigit,
        Option.bind_some, run_nil]

def Follows (c : Char) : Prop := c.isDigit = false ∧ c ≠ '\\'

/-- The number is over when another character comes. -/
theorem run_digits (hc : Follows c) (rest : List Char) :
    run (digits outer level n) (c :: rest) =
      (level.factor n).bind fun term => run (after outer level.sum term) (c :: rest) := by
  have hstep : step (digits outer level n) c =
      (level.factor n).bind fun term => step (after outer level.sum term) c := by
    rw [step, if_neg (by rw [hc.1]; decide), if_neg hc.2]
    rfl
  rw [run_cons, hstep, Option.bind_assoc]
  rfl

def Ends (c : Char) : Prop := c = ')' ∨ c = '\n' ∨ c = '+' ∨ c = '-'

theorem Ends.follows (h : Ends c) : Follows c := by
  rcases h with rfl | rfl | rfl | rfl <;> exact ⟨rfl, by decide⟩

/-- Behind a sum only its value counts. -/
theorem run_after_sum (hc : Ends c) (rest : List Char) :
    run (after outer sum term) (c :: rest) = run (after outer id (sum term)) (c :: rest) := by
  rcases hc with rfl | rfl | rfl | rfl
  · cases outer <;> rfl
  · cases outer <;> rfl
  · rfl
  · rfl

/-- The machine reads the text of `e` as an operand with the value of `e`. -/
def Reads : {k : Kind} → Expr k → Prop
  | .factor, e => ∀ outer level dash c rest, Follows c → (dash = true → e.leads = false) →
      run (operand outer level dash) (e.text ++ c :: rest) =
        e.value.bind fun v => (level.factor v).bind fun term =>
          run (after outer level.sum term) (c :: rest)
  | .term, e => ∀ outer sum dash c rest, Follows c → (dash = true → e.leads = false) →
      run (operand outer ⟨sum, some⟩ dash) (e.text ++ c :: rest) =
        e.value.bind fun v => run (after outer sum v) (c :: rest)
  | .sum, e => ∀ outer dash c rest, Ends c → (dash = true → e.leads = false) →
      run (operand outer .fresh dash) (e.text ++ c :: rest) =
        e.value.bind fun v => run (after outer id v) (c :: rest)

theorem reads (e : Expr k) (h : e.Clear) : Reads e := by
  induction e with
  | number literal =>
      intro outer level dash c rest hc hdash
      rw [Expr.text, run_append, run_numeral literal.numeral, Option.bind_some, run_digits hc]
      rfl
  | group e ih =>
      intro outer level dash c rest hc hdash
      have hinner := ih h (level :: outer) false ')' (c :: rest) (.inl rfl) (by simp)
      have hopen : run (operand outer level dash) ('(' :: (e.text ++ ')' :: c :: rest)) =
          run (operand (level :: outer) .fresh false) (e.text ++ ')' :: c :: rest) := rfl
      rw [Expr.text, List.cons_append, List.append_assoc, List.singleton_append, hopen, hinner]
      rw [Expr.value]
      congr 1
      funext v
      rw [run_cons, step, afterStep, id_eq]
      cases level.factor v <;> rfl
  | neg e ih =>
      intro outer level dash c rest hc hdash
      have hplain : dash = false := by
        cases dash with
        | false => rfl
        | true => cases hdash rfl
      subst hplain
      have hinner := ih h.2 outer ⟨level.sum, fun n => level.factor (-n)⟩ true c rest hc
        fun _ => h.1
      have hminus : run (operand outer level false) ('-' :: (e.text ++ c :: rest)) =
          run (operand outer ⟨level.sum, fun n => level.factor (-n)⟩ true)
            (e.text ++ c :: rest) := rfl
      rw [Expr.text, List.cons_append, hminus, hinner, Expr.value]
      cases e.value <;> rfl
  | before e ih =>
      intro outer level dash c rest hc hdash
      exact ih h outer level false c rest hc (by simp)
  | behind e ih =>
      intro outer level dash c rest hc hdash
      have hinner := ih h outer level dash ' ' (c :: rest) ⟨rfl, by decide⟩ hdash
      rw [Expr.text, List.append_assoc, List.singleton_append, hinner]
      rfl
  | factor e ih =>
      intro outer sum dash c rest hc hdash
      exact ih h outer ⟨sum, some⟩ dash c rest hc hdash
  | mul a b iha ihb =>
      intro outer sum dash c rest hc hdash
      rw [Expr.text, List.append_assoc, List.cons_append,
        iha h.1 outer sum dash '*' _ ⟨rfl, by decide⟩ hdash, Expr.value, Option.bind_assoc]
      congr 1
      funext m
      have hright := ihb h.2 outer ⟨sum, fun n => some (m * n)⟩ false c rest hc (by simp)
      rw [Option.bind_assoc]
      exact hright
  | div a b iha ihb =>
      intro outer sum dash c rest hc hdash
      rw [Expr.text, List.append_assoc, List.cons_append,
        iha h.1 outer sum dash '/' _ ⟨rfl, by decide⟩ hdash, Expr.value, Option.bind_assoc]
      congr 1
      funext m
      have hright := ihb h.2 outer ⟨sum, fun n => if n = 0 then none else some (m.tdiv n)⟩ false
        c rest hc (by simp)
      rw [Option.bind_assoc]
      exact hright
  | term e ih =>
      intro outer dash c rest hc hdash
      exact ih h outer id dash c rest hc.follows hdash
  | add a b iha ihb =>
      intro outer dash c rest hc hdash
      rw [Expr.text, List.append_assoc, List.cons_append,
        iha h.1 outer dash '+' _ (by simp [Ends]) hdash, Expr.value, Option.bind_assoc]
      congr 1
      funext m
      have hright := ihb h.2 outer (fun n => m + n) false c rest hc.follows (by simp)
      rw [Option.bind_assoc]
      refine hright.trans ?_
      congr 1
      funext n
      exact run_after_sum hc rest
  | sub a b iha ihb =>
      intro outer dash c rest hc hdash
      rw [Expr.text, List.append_assoc, List.cons_append,
        iha h.1 outer dash '-' _ (by simp [Ends]) hdash, Expr.value, Option.bind_assoc]
      congr 1
      funext m
      have hright := ihb h.2.2 outer (fun n => m - n) true c rest hc.follows fun _ => h.2.1
      rw [Option.bind_assoc]
      refine hright.trans ?_
      congr 1
      funext n
      exact run_after_sum hc rest

theorem text_of_leads (e : Expr k) (h : e.leads = true) : ∃ rest, e.text = '-' :: rest := by
  induction e with
  | number _ | group _ _ | before _ _ => cases h
  | neg e ih => exact ⟨e.text, rfl⟩
  | factor e ih | term e ih => exact ih h
  | behind e ih =>
      obtain ⟨rest, hrest⟩ := ih h
      exact ⟨rest ++ [' '], by rw [Expr.text, hrest, List.cons_append]⟩
  | mul a b iha ihb | div a b iha ihb | add a b iha ihb | sub a b iha ihb =>
      obtain ⟨rest, hrest⟩ := iha h
      rw [Expr.text, hrest]
      exact ⟨_, rfl⟩

/-- Behind a minus sign there is no other one. -/
theorem step_minus (h : step s '-' = some s') : step s' '-' = none := by
  have hafter : ∀ outer sum term, afterStep outer sum term '-' = some s' → step s' '-' = none := by
    intro outer sum term h
    cases h
    rfl
  cases s with
  | operand outer level dash =>
      cases dash with
      | true => cases h
      | false =>
          cases h
          rfl
  | digits outer level n =>
      obtain ⟨term, -, hterm⟩ := Option.bind_eq_some_iff.mp h
      exact hafter outer level.sum term hterm
  | broken => cases h
  | after outer sum term => exact hafter outer sum term h
  | done => cases h

theorem run_minus_minus (h : ['-', '-'] <:+: text) : run s text = none := by
  obtain ⟨front, back, rfl⟩ := h
  rw [run_append, run_append]
  cases run s front with
  | none => rfl
  | some t =>
      rw [Option.bind_some, run_cons]
      cases hstep : step t '-' with
      | none => rfl
      | some t' =>
          rw [Option.bind_some, run_cons, step_minus hstep]
          rfl

/-- A text without two minus signs in a row comes from an expression without them. -/
theorem clear_of_text (e : Expr k) (h : ¬ ['-', '-'] <:+: e.text) : e.Clear := by
  have hsign : ∀ {k : Kind} (e : Expr k), ¬ ['-', '-'] <:+: '-' :: e.text → e.leads = false := by
    intro k e hnot
    cases hleads : e.leads with
    | false => rfl
    | true =>
        obtain ⟨rest, hrest⟩ := text_of_leads e hleads
        rw [hrest] at hnot
        exact absurd ⟨[], rest, rfl⟩ hnot
  induction e with
  | number _ => trivial
  | group e ih =>
      exact ih fun hoccurs => h (hoccurs.trans ⟨['('], [')'], rfl⟩)
  | neg e ih =>
      exact ⟨hsign e h, ih fun hoccurs => h (hoccurs.trans (List.suffix_cons '-' _).isInfix)⟩
  | before e ih => exact ih fun hoccurs => h (hoccurs.trans (List.suffix_cons ' ' _).isInfix)
  | behind e ih => exact ih fun hoccurs => h (hoccurs.trans (List.prefix_append _ [' ']).isInfix)
  | factor e ih | term e ih => exact ih h
  | mul a b iha ihb | div a b iha ihb | add a b iha ihb =>
      refine ⟨iha fun hoccurs => h (hoccurs.trans (List.prefix_append _ _).isInfix),
        ihb fun hoccurs => h (hoccurs.trans ?_)⟩
      exact ((List.suffix_cons _ _).trans (List.suffix_append _ _)).isInfix
  | sub a b iha ihb =>
      have hright : '-' :: b.text <:+: a.text ++ '-' :: b.text := (List.suffix_append _ _).isInfix
      refine ⟨iha fun hoccurs => h (hoccurs.trans (List.prefix_append _ _).isInfix),
        hsign b fun hoccurs => h (hoccurs.trans hright),
        ihb fun hoccurs => h (hoccurs.trans ((List.suffix_cons '-' _).isInfix.trans hright))⟩

/-- The machine evaluates what has no two minus signs in a row, and divides by no zero. -/
theorem evaluate_eq_some_iff (e : Expr .sum) :
    evaluate (e.text ++ ['\n']) = some v ↔ e.Clear ∧ e.value = some v := by
  constructor
  · intro h
    have hclear : e.Clear := by
      apply clear_of_text
      intro hoccurs
      rw [evaluate, run_minus_minus (hoccurs.trans (List.prefix_append _ _).isInfix)] at h
      cases h
    have hread := reads e hclear [] false '\n' [] (.inr (.inl rfl)) (by simp)
    refine ⟨hclear, ?_⟩
    rw [evaluate, hread] at h
    cases hvalue : e.value with
    | none =>
        rw [hvalue] at h
        cases h
    | some w =>
        rw [hvalue] at h
        exact h
  · rintro ⟨hclear, hvalue⟩
    have hread := reads e hclear [] false '\n' [] (.inr (.inl rfl)) (by simp)
    rw [evaluate, hread, hvalue]
    rfl

theorem Numeral.mem (h : Numeral n text) (hc : c ∈ text) :
    c.isDigit = true ∨ c = '\\' ∨ c = '\n' := by
  induction h with
  | digit hdigit =>
      rw [List.mem_singleton.mp hc]
      exact .inl hdigit
  | more _ hdigit ih =>
      cases List.mem_append.mp hc with
      | inl hc => exact ih hc
      | inr hc =>
          rw [List.mem_singleton.mp hc]
          exact .inl hdigit
  | broken _ hdigit ih =>
      cases List.mem_append.mp hc with
      | inl hc => exact ih hc
      | inr hc =>
          simp only [List.mem_cons, List.not_mem_nil, or_false] at hc
          rcases hc with rfl | rfl | rfl
          · exact .inr (.inl rfl)
          · exact .inr (.inr rfl)
          · exact .inl hdigit

theorem Numeral.last (h : Numeral n text) :
    ∃ front c, text = front ++ [c] ∧ c.isDigit = true := by
  cases h with
  | @digit c hdigit => exact ⟨[], c, rfl, hdigit⟩
  | @more n front c _ hdigit => exact ⟨front, c, rfl, hdigit⟩
  | @broken n front c _ hdigit =>
      exact ⟨front ++ ['\\', '\n'], c, by rw [List.append_assoc]; rfl, hdigit⟩

theorem Prints.last (h : Prints v text) :
    ∃ front c, text = front ++ [c] ∧ c.isDigit = true := by
  cases h with
  | unsigned literal => exact literal.numeral.last
  | minus literal _ =>
      obtain ⟨front, c, htext, hdigit⟩ := literal.numeral.last
      exact ⟨'-' :: front, c, by rw [htext, List.cons_append], hdigit⟩

theorem Prints.mem (h : Prints v text) (hc : c ∈ text) :
    c.isDigit = true ∨ c = '-' ∨ c = '\\' ∨ c = '\n' := by
  cases h with
  | unsigned literal => exact (literal.numeral.mem hc).imp_right .inr
  | minus literal _ =>
      cases hc with
      | head => exact .inr (.inl rfl)
      | tail _ hc => exact (literal.numeral.mem hc).imp_right .inr

theorem Expr.exists_digit (e : Expr k) : ∃ c ∈ e.text, c.isDigit = true := by
  induction e with
  | number literal =>
      obtain ⟨front, c, htext, hdigit⟩ := literal.numeral.last
      exact ⟨c, by rw [Expr.text, htext]; exact List.mem_concat_self, hdigit⟩
  | group e ih =>
      obtain ⟨c, hmem, hdigit⟩ := ih
      exact ⟨c, List.mem_cons_of_mem _ (List.mem_append_left _ hmem), hdigit⟩
  | neg e ih | before e ih =>
      obtain ⟨c, hmem, hdigit⟩ := ih
      exact ⟨c, List.mem_cons_of_mem _ hmem, hdigit⟩
  | factor e ih | term e ih => exact ih
  | behind e ih =>
      obtain ⟨c, hmem, hdigit⟩ := ih
      exact ⟨c, List.mem_append_left _ hmem, hdigit⟩
  | mul a b iha ihb | div a b iha ihb | add a b iha ihb | sub a b iha ihb =>
      obtain ⟨c, hmem, hdigit⟩ := iha
      exact ⟨c, List.mem_append_left _ hmem, hdigit⟩

theorem digitValue_digitChar : ∀ d < 10, digitValue d.digitChar = d := by decide

theorem numeral_toDigits (n : Nat) : Numeral n (Nat.toDigits 10 n) := by
  induction n using Nat.strong_induction_on with
  | _ n ih =>
      have hdigit : ∀ d < 10, d.digitChar.isDigit = true := fun d hd => by
        rw [Nat.isDigit_digitChar, decide_eq_true hd]
      by_cases hsmall : n < 10
      · rw [Nat.toDigits_of_lt_base hsmall]
        have hone := Numeral.digit (hdigit n hsmall)
        rwa [digitValue_digitChar n hsmall] at hone
      · have hlast : n % 10 < 10 := Nat.mod_lt n (by decide)
        rw [Nat.toDigits_of_base_le (by decide) (by omega)]
        have hmore := Numeral.more (ih (n / 10) (by omega)) (hdigit (n % 10) hlast)
        rwa [digitValue_digitChar _ hlast, Nat.div_add_mod] at hmore

theorem prints_printInt (v : Int) : Prints v (Stdio.printInt v) := by
  rw [Stdio.printInt]
  split
  · have hminus := Prints.minus ⟨v.natAbs, _, numeral_toDigits v.natAbs⟩ (by dsimp only; omega)
    have hv : -(v.natAbs : Int) = v := by omega
    rwa [hv] at hminus
  · have hunsigned := Prints.unsigned ⟨v.natAbs, _, numeral_toDigits v.natAbs⟩
    have hv : (v.natAbs : Int) = v := by omega
    rwa [hv] at hunsigned

end Bc
