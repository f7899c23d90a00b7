import LinuxTraining.Library.Shell

/-!
The calculator of `calculator.sh`. Its loop hands what stands in the first parenthesised group
that holds no parenthesis to `bc`, and puts the result wherever that group occurs. `bc` is a
function from its input to its standard output. A byte that is part of no character of the locale
is matched by no bracket expression.
-/
namespace LinuxTraining.Calculator
open Shell Alphabet

section
variable {α : Type*} [DecidableEq α] [Alphabet α]

def isParenthesis (a : α) : Bool := a = char '(' ∨ a = char ')'

def inBrackets (a : α) : Bool := isChar a && !isParenthesis a

def Plain (text : List α) : Prop := ∀ a ∈ text, isParenthesis a = false

/-- `BASH_REMATCH[0]`, when `BASH_REMATCH[1]` is `inner`. -/
def group (inner : List α) : List α := char '(' :: (inner ++ [char ')'])

/-- `BASH_REMATCH[1]` after `=~ $pattern`, which finds the leftmost match. -/
def firstGroup : List α → Option (List α)
  | [] => none
  | a :: rest =>
      let inner := rest.takeWhile inBrackets
      if group inner <+: a :: rest then some inner else firstGroup rest

def calculateParentheses (bc : List α → List α) (input : List α) : List α :=
  let result := substitution (bc (echo input))
  echo result

/-- A turn of the loop of `calculate`; `none`: no group is left. -/
def turn (bc : List α → List α) (result : List α) : Option (List α) :=
  (firstGroup result).map fun innerExpr =>
    let innerResult := substitution (calculateParentheses bc innerExpr)
    replaceAll (group innerExpr) innerResult result

/-- The loop of `calculate`; `none`: it takes more turns than `turns`. -/
def reduce (bc : List α → List α) : (turns : Nat) → List α → Option (List α)
  | 0, result =>
      match turn bc result with
      | none => some result
      | some _ => none
  | turns + 1, result =>
      match turn bc result with
      | none => some result
      | some result => reduce bc turns result

def calculate (bc : List α → List α) (turns : Nat) (expression : List α) : Option (List α) :=
  (reduce bc turns expression).map fun result =>
    let finalResult := substitution (bc (echo result))
    echo finalResult

variable {bc : List α → List α} {turns : Nat} {text next inner replacement : List α}

theorem not_mem_of_plain {a : α} (h : Plain text) (ha : isParenthesis a = true) : a ∉ text := by
  intro hmem
  rw [h a hmem] at ha
  cases ha

omit [DecidableEq α] in
theorem group_ne_nil (inner : List α) : group inner ≠ [] := List.cons_ne_nil _ _

theorem inBrackets_iff {a : α} : inBrackets a = true ↔ isChar a = true ∧ isParenthesis a = false := by
  rw [inBrackets, Bool.and_eq_true, Bool.not_eq_true']

theorem takeWhile_inBrackets (text : List α) :
    Plain (text.takeWhile inBrackets) ∧ Valid (text.takeWhile inBrackets) :=
  ⟨fun _ ha => (inBrackets_iff.mp (List.mem_takeWhile_imp ha)).2,
    fun _ ha => (inBrackets_iff.mp (List.mem_takeWhile_imp ha)).1⟩

theorem takeWhile_plain (hplain : Plain inner) (hvalid : Valid inner) (back : List α) :
    (inner ++ char ')' :: back).takeWhile inBrackets = inner := by
  rw [List.takeWhile_append_of_pos fun a ha => inBrackets_iff.mpr ⟨hvalid a ha, hplain a ha⟩]
  simp [inBrackets, isParenthesis]

/-- A group at the front holds what stands before the next parenthesis. -/
theorem takeWhile_of_group {a : α} {rest : List α} (hplain : Plain inner) (hvalid : Valid inner)
    (h : group inner <+: a :: rest) : rest.takeWhile inBrackets = inner := by
  obtain ⟨back, hback⟩ := h
  have hrest : rest = inner ++ char ')' :: back := by
    rw [group, List.cons_append, List.append_assoc] at hback
    exact (List.cons.inj hback).2.symm
  rw [hrest, takeWhile_plain hplain hvalid]

theorem firstGroup_spec (h : firstGroup text = some inner) :
    Plain inner ∧ Valid inner ∧ group inner <:+: text := by
  induction text with
  | nil => cases h
  | cons a rest ih =>
      rw [firstGroup] at h
      split at h
      · rename_i hfront
        cases h
        obtain ⟨hplain, hvalid⟩ := takeWhile_inBrackets rest
        exact ⟨hplain, hvalid, hfront.isInfix⟩
      · obtain ⟨hplain, hvalid, hlater⟩ := ih h
        exact ⟨hplain, hvalid, hlater.trans (List.suffix_cons a rest).isInfix⟩

/-- The search misses no group that holds characters only. -/
theorem firstGroup_eq_none (h : firstGroup text = none) (hplain : Plain inner)
    (hvalid : Valid inner) : ¬ group inner <:+: text := by
  induction text with
  | nil =>
      intro hoccurs
      exact group_ne_nil inner (List.infix_nil.mp hoccurs)
  | cons a rest ih =>
      rw [firstGroup] at h
      split at h
      · cases h
      · rename_i hfirst
        intro hoccurs
        cases List.infix_cons_iff.mp hoccurs with
        | inl hfront =>
            rw [takeWhile_of_group hplain hvalid hfront] at hfirst
            exact hfirst hfront
        | inr hlater => exact ih h hlater

theorem mem_innerResult {a : α} (h : a ∈ substitution (calculateParentheses bc inner))
    (ha : a ≠ char '\n') : a ∈ bc (echo inner) :=
  mem_of_mem_substitution (mem_of_mem_echo (mem_of_mem_substitution h) ha)

/-- A group is replaced by a text without parentheses, so there are fewer of them. -/
theorem count_turn_lt (hnewline : (char '(' : α) ≠ char '\n')
    (hbc : ∀ inner, firstGroup text = some inner → char '(' ∉ bc (echo inner))
    (h : turn bc text = some next) : next.count (char '(') < text.count (char '(') := by
  obtain ⟨inner, hinner, hnext⟩ := Option.map_eq_some_iff.mp h
  cases hnext
  apply count_replaceAll_lt
  · rw [List.count_eq_zero_of_not_mem fun hmem => hbc inner hinner (mem_innerResult hmem hnewline)]
    simp [group]
  · exact (firstGroup_spec hinner).2.2

theorem turn_eq_none : turn bc text = none ↔ firstGroup text = none := Option.map_eq_none_iff

theorem reduce_of_turn_eq_none (turns : Nat) (h : turn bc text = none) :
    reduce bc turns text = some text := by
  cases turns with
  | zero => rw [reduce, h]
  | succ turns => rw [reduce, h]

theorem reduce_of_turn_eq_some (h : turn bc text = some next) :
    reduce bc (turns + 1) text = reduce bc turns next := by
  rw [reduce, h]

/-- Where every turn keeps `P` and takes parentheses away, the loop ends after as many turns as
there are opening ones, with `P` and without a group. -/
theorem reduce_ends {P : List α → Prop}
    (hturn : ∀ text next, P text → turn bc text = some next →
      P next ∧ next.count (char '(') < text.count (char '('))
    (hP : P text) (h : text.count (char '(') ≤ turns) :
    ∃ result, reduce bc turns text = some result ∧ P result ∧ firstGroup result = none := by
  induction turns generalizing text with
  | zero =>
      cases hnext : turn bc text with
      | none => exact ⟨text, reduce_of_turn_eq_none 0 hnext, hP, turn_eq_none.mp hnext⟩
      | some next => exact absurd (hturn text next hP hnext).2 (by omega)
  | succ turns ih =>
      cases hnext : turn bc text with
      | none => exact ⟨text, reduce_of_turn_eq_none _ hnext, hP, turn_eq_none.mp hnext⟩
      | some next =>
          obtain ⟨hPnext, hfewer⟩ := hturn text next hP hnext
          rw [reduce_of_turn_eq_some hnext]
          exact ih hPnext (by omega)

end

end LinuxTraining.Calculator
