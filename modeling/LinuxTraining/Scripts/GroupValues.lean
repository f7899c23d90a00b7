import LinuxTraining.Library.Bc
import LinuxTraining.Scripts.Calculator
import Mathlib.Logic.Relation

/-!
What the loop of `calculator.sh` makes of a well-formed expression. A turn puts the printed value
of a group in its place, and the value stays. Two minus signs may come to stand next to each
other, though, and that is another token: where the sign before a group and that of its value
meet, `bc` prints nothing.
-/
namespace LinuxTraining.Calculator
open Shell Bc

def OpensNegative : {k : Kind} → Expr k → Prop
  | _, .group e => ∃ v, e.value = some v ∧ v < 0
  | _, .number _ | _, .neg _ | _, .before _ => False
  | _, .behind e | _, .factor e | _, .term e => OpensNegative e
  | _, .mul a _ | _, .div a _ | _, .add a _ | _, .sub a _ => OpensNegative a

/-- No minus sign stands directly before a group that has a negative value. -/
def Safe : {k : Kind} → Expr k → Prop
  | _, .number _ => True
  | _, .neg e => ¬ OpensNegative e ∧ Safe e
  | _, .group e | _, .before e | _, .behind e | _, .factor e | _, .term e => Safe e
  | _, .mul a b | _, .div a b | _, .add a b => Safe a ∧ Safe b
  | _, .sub a b => Safe a ∧ ¬ OpensNegative b ∧ Safe b

def Joins {k : Kind} (e : Expr k) : Prop := e.leads = true ∨ OpensNegative e

def Kept : {k : Kind} → Expr k → Prop
  | _, .number _ => True
  | _, .neg e => ¬ Joins e ∧ Kept e
  | _, .group e | _, .before e | _, .behind e | _, .factor e | _, .term e => Kept e
  | _, .mul a b | _, .div a b | _, .add a b => Kept a ∧ Kept b
  | _, .sub a b => Kept a ∧ ¬ Joins b ∧ Kept b

def replaceGroups (inner : List Char) (r : Expr .factor) : {k : Kind} → Expr k → Expr k
  | _, .number literal => .number literal
  | _, .group e => if e.text = inner then r else .group (replaceGroups inner r e)
  | _, .neg e => .neg (replaceGroups inner r e)
  | _, .before e => .before (replaceGroups inner r e)
  | _, .behind e => .behind (replaceGroups inner r e)
  | _, .factor e => .factor (replaceGroups inner r e)
  | _, .mul a b => .mul (replaceGroups inner r a) (replaceGroups inner r b)
  | _, .div a b => .div (replaceGroups inner r a) (replaceGroups inner r b)
  | _, .term e => .term (replaceGroups inner r e)
  | _, .add a b => .add (replaceGroups inner r a) (replaceGroups inner r b)
  | _, .sub a b => .sub (replaceGroups inner r a) (replaceGroups inner r b)

def Holds (inner : List Char) : {k : Kind} → Expr k → Prop
  | _, .number _ => False
  | _, .group e => e.text = inner ∨ Holds inner e
  | _, .neg e | _, .before e | _, .behind e | _, .factor e | _, .term e => Holds inner e
  | _, .mul a b | _, .div a b | _, .add a b | _, .sub a b => Holds inner a ∨ Holds inner b

/-- `bc` prints, by `printed`, the value of each expression that it reads, and nothing for what
is an error to it. -/
structure IsBc (bc : List Char → List Char) (printed : Int → List Char) : Prop where
  prints : ∀ v, Prints v (printed v)
  evaluated : ∀ (e : Expr .sum) (v : Int), evaluate (e.text ++ ['\n']) = some v →
    bc (e.text ++ ['\n']) = printed v ++ ['\n']
  refused : ∀ e : Expr .sum, evaluate (e.text ++ ['\n']) = none → bc (e.text ++ ['\n']) = []

def Turns (bc : List Char → List Char) : List Char → List Char → Prop :=
  Relation.ReflTransGen fun text next => turn bc text = some next

def KeptText (v : Int) (text : List Char) : Prop :=
  ∃ e : Expr .sum, text = e.text ∧ Kept e ∧ e.value = some v

/-- `calculate` prints what `bc` prints for the expression itself, and so would every text on the
way. -/
def MeaningKept (bc : List Char → List Char) (expression : List Char) : Prop :=
  (∀ result, Turns bc expression result → bc (echo result) = bc (echo expression)) ∧
    calculate bc (expression.count '(') expression = some (bc (echo expression))

variable {k : Kind} {bc : List Char → List Char} {printed : Int → List Char} {turns n : Nat}
  {text next inner out front : List Char} {v : Int} {r : Expr .factor}

theorem kept_iff (e : Expr k) : Kept e ↔ e.Clear ∧ Safe e := by
  induction e with
  | number _ => exact ⟨fun _ => ⟨trivial, trivial⟩, fun _ => trivial⟩
  | group e ih | before e ih | behind e ih | factor e ih | term e ih => exact ih
  | neg e ih =>
      simp only [Kept, Expr.Clear, Safe, Joins, ih, not_or, Bool.not_eq_true]
      tauto
  | mul a b iha ihb | div a b iha ihb | add a b iha ihb =>
      simp only [Kept, Expr.Clear, Safe, iha, ihb]
      tauto
  | sub a b iha ihb =>
      simp only [Kept, Expr.Clear, Safe, Joins, iha, ihb, not_or, Bool.not_eq_true]
      tauto

theorem digit_not_parenthesis {c : Char} (h : c.isDigit = true) : isParenthesis c = false := by
  have hopen : c ≠ '(' := Stdio.digit_ne h rfl
  have hclose : c ≠ ')' := Stdio.digit_ne h rfl
  simp [isParenthesis, hopen, hclose]

theorem plain_append {back : List Char} : Plain (front ++ back) ↔ Plain front ∧ Plain back :=
  List.forall_mem_append

theorem plain_cons {c : Char} :
    Plain (c :: text) ↔ isParenthesis c = false ∧ Plain text := List.forall_mem_cons

theorem plain_numeral (h : Numeral n text) : Plain text := by
  intro c hc
  rcases h.mem hc with hdigit | rfl | rfl
  · exact digit_not_parenthesis hdigit
  · rfl
  · rfl

theorem plain_prints (h : Prints v out) : Plain out := by
  cases h with
  | unsigned literal => exact plain_numeral literal.numeral
  | minus literal _ => exact plain_cons.mpr ⟨rfl, plain_numeral literal.numeral⟩

theorem parentheses_of_plain (h : Plain text) : text.filter isParenthesis = [] :=
  List.filter_eq_nil_iff.mpr fun c hc => by simp [h c hc]

theorem or_ne_some {c : Char} {x y : Option Char} (hx : x ≠ some c) (hy : y ≠ some c) :
    x.or y ≠ some c := by
  cases x with
  | none => exact hy
  | some d => exact hx

theorem firstParenthesis_ne (e : Expr k) : (e.text.filter isParenthesis).head? ≠ some ')' := by
  induction e with
  | number literal =>
      rw [Expr.text, parentheses_of_plain (plain_numeral literal.numeral)]
      exact (Option.some_ne_none _).symm
  | group e ih => simp [Expr.text, isParenthesis]
  | neg e ih | before e ih => exact ih
  | behind e ih =>
      rw [Expr.text, List.filter_append, List.head?_append]
      exact or_ne_some ih (Option.some_ne_none _).symm
  | factor e ih | term e ih => exact ih
  | mul a b iha ihb | div a b iha ihb | add a b iha ihb | sub a b iha ihb =>
      rw [Expr.text, List.filter_append, List.head?_append]
      exact or_ne_some iha ihb

theorem lastParenthesis_ne (e : Expr k) : (e.text.filter isParenthesis).getLast? ≠ some '(' := by
  induction e with
  | number literal =>
      rw [Expr.text, parentheses_of_plain (plain_numeral literal.numeral)]
      exact (Option.some_ne_none _).symm
  | group e ih =>
      rw [Expr.text, ← List.cons_append, List.filter_append, List.getLast?_append]
      intro h
      cases h
  | neg e ih | before e ih => exact ih
  | behind e ih =>
      rw [Expr.text, List.filter_append, List.getLast?_append]
      exact or_ne_some (Option.some_ne_none _).symm ih
  | factor e ih | term e ih => exact ih
  | mul a b iha ihb | div a b iha ihb | add a b iha ihb | sub a b iha ihb =>
      rw [Expr.text, List.filter_append, List.getLast?_append]
      exact or_ne_some ihb iha

theorem group_eq (inner : List Char) : group inner = '(' :: (inner ++ [')']) := rfl

/-- What begins a group but does not end it has an opening parenthesis last. -/
theorem lastParenthesis_begun {begun rest : List Char} (hplain : Plain inner)
    (hsplit : group inner = begun ++ rest) (hbegun : begun ≠ []) (hrest : rest ≠ [])
    (hsuffix : begun <:+ front) : (front.filter isParenthesis).getLast? = some '(' := by
  cases begun with
  | nil => exact absurd rfl hbegun
  | cons c begun =>
      obtain ⟨hc, htail⟩ := List.cons.inj ((group_eq inner).symm.trans hsplit)
      cases hc
      have hinner : inner = begun ++ rest.dropLast := by
        have hlast : (inner ++ [')']).dropLast = (begun ++ rest).dropLast :=
          congrArg List.dropLast htail
        rwa [List.dropLast_concat, List.dropLast_append_of_ne_nil hrest] at hlast
      have hbegunPlain : Plain begun := (plain_append.mp (hinner ▸ hplain)).1
      obtain ⟨before, rfl⟩ := hsuffix
      have hfilter : ('(' :: begun).filter isParenthesis = ['('] := by
        rw [List.filter_cons_of_pos rfl, parentheses_of_plain hbegunPlain]
      rw [List.filter_append, hfilter, List.getLast?_append]
      rfl

theorem replaceAll_other {c : Char} (hc : c ≠ '(') (out rest : List Char) :
    replaceAll (group inner) out (c :: rest) = c :: replaceAll (group inner) out rest := by
  apply replaceAll_cons
  intro hfront
  obtain ⟨back, hback⟩ := hfront
  exact hc (List.cons.inj hback).1.symm

/-- No occurrence of a group reaches over the end of an expression. -/
theorem replaceAll_text_append (hplain : Plain inner) (e : Expr k) (out back : List Char) :
    replaceAll (group inner) out (e.text ++ back) =
      replaceAll (group inner) out e.text ++ replaceAll (group inner) out back := by
  apply replaceAll_append (group_ne_nil inner)
  intro begun rest hsplit hbegun hrest hsuffix
  exact lastParenthesis_ne e (lastParenthesis_begun hplain hsplit hbegun hrest hsuffix)

/-- A group that holds something else is not taken for one that holds `inner`. -/
theorem no_group_in_front (hplain : Plain inner) (e : Expr .sum) (hne : e.text ≠ inner) :
    ¬ group inner <+: '(' :: (e.text ++ [')']) := by
  rintro ⟨back, hback⟩
  have htail : inner ++ ')' :: back = e.text ++ [')'] := by
    rw [group_eq, List.cons_append, List.append_assoc] at hback
    exact (List.cons.inj hback).2
  have hfirst : ((e.text ++ [')']).filter isParenthesis).head? = some ')' := by
    rw [← htail, List.filter_append, parentheses_of_plain hplain]
    rfl
  rw [List.filter_append, List.head?_append] at hfirst
  cases hparens : e.text.filter isParenthesis with
  | cons c rest =>
      have hclose := firstParenthesis_ne e
      rw [hparens] at hclose hfirst
      exact hclose hfirst
  | nil =>
      -- both stop before the first parenthesis
      have hplainText : Plain e.text := fun c hc => by
        simpa using List.filter_eq_nil_iff.mp hparens c hc
      have hsame := congrArg (List.takeWhile inBrackets) htail
      have hfront := takeWhile_plain hplain (fun _ _ => rfl) back
      have hwhole := takeWhile_plain hplainText (fun _ _ => rfl) []
      exact hne (hwhole.symm.trans (hsame.symm.trans hfront))

/-- Replacing in the text is replacing in the expression. -/
theorem text_replaceGroups (hplain : Plain inner) (e : Expr k) :
    (replaceGroups inner r e).text = replaceAll (group inner) r.text e.text := by
  have hnone : ∀ {text}, Plain text → replaceAll (group inner) r.text text = text :=
    fun htext => replaceAll_of_notMem (List.mem_cons_self) (not_mem_of_plain htext rfl)
  induction e with
  | number literal => exact (hnone (plain_numeral literal.numeral)).symm
  | group e ih =>
      rw [replaceGroups]
      by_cases hsame : e.text = inner
      · have hwhole := replaceAll_append_left (r := r.text) (group_ne_nil inner) []
        rw [if_pos hsame, Expr.text, hsame]
        rw [List.append_nil, replaceAll_nil, List.append_nil] at hwhole
        exact hwhole.symm
      · rw [if_neg hsame, Expr.text, Expr.text, replaceAll_cons (no_group_in_front hplain e hsame),
          replaceAll_text_append hplain, replaceAll_other (by decide), replaceAll_nil, ih]
  | neg e ih => rw [replaceGroups, Expr.text, Expr.text, replaceAll_other (by decide), ih]
  | before e ih => rw [replaceGroups, Expr.text, Expr.text, replaceAll_other (by decide), ih]
  | behind e ih =>
      rw [replaceGroups, Expr.text, Expr.text, replaceAll_text_append hplain,
        replaceAll_other (by decide), replaceAll_nil, ih]
  | factor e ih | term e ih => exact ih
  | mul a b iha ihb | div a b iha ihb | add a b iha ihb | sub a b iha ihb =>
      rw [replaceGroups, Expr.text, Expr.text, replaceAll_text_append hplain,
        replaceAll_other (by decide), iha, ihb]

/-- What stands in a group decides its value. -/
theorem value_of_text (hinner : evaluate (inner ++ ['\n']) = some v) {e : Expr .sum}
    (h : e.text = inner) : e.Clear ∧ e.value = some v := by
  subst h
  exact (evaluate_eq_some_iff e).mp hinner

/-- The value of a group in its place: the value of the expression stays. -/
theorem value_replaceGroups (hinner : evaluate (inner ++ ['\n']) = some v)
    (hr : r.value = some v) (e : Expr k) : (replaceGroups inner r e).value = e.value := by
  induction e with
  | number literal => rfl
  | group e ih =>
      rw [replaceGroups]
      by_cases hsame : e.text = inner
      · rw [if_pos hsame, hr, Expr.value, (value_of_text hinner hsame).2]
      · rw [if_neg hsame]
        exact ih
  | neg e ih => rw [replaceGroups, Expr.value, ih, Expr.value]
  | before e ih | behind e ih | factor e ih | term e ih => exact ih
  | mul a b iha ihb | div a b iha ihb | add a b iha ihb | sub a b iha ihb =>
      rw [replaceGroups, Expr.value, iha, ihb, Expr.value]

theorem joins_replaceGroups (hinner : evaluate (inner ++ ['\n']) = some v)
    (hr : r.value = some v) (hjoins : Joins r ↔ v < 0) (e : Expr k) :
    Joins (replaceGroups inner r e) ↔ Joins e := by
  induction e with
  | number literal => rfl
  | group e ih =>
      rw [replaceGroups]
      by_cases hsame : e.text = inner
      · rw [if_pos hsame, hjoins]
        constructor
        · intro hneg
          exact .inr ⟨v, (value_of_text hinner hsame).2, hneg⟩
        · rintro (hleads | ⟨w, hw, hneg⟩)
          · cases hleads
          · rw [(value_of_text hinner hsame).2] at hw
            cases hw
            exact hneg
      · rw [if_neg hsame]
        simp only [Joins, Expr.leads, OpensNegative, value_replaceGroups hinner hr]
  | neg e ih => exact ⟨fun _ => .inl rfl, fun _ => .inl rfl⟩
  | before e ih => rfl
  | behind e ih | factor e ih | term e ih => exact ih
  | mul a b iha ihb | div a b iha ihb | add a b iha ihb | sub a b iha ihb => exact iha

theorem safe_of_plain (e : Expr k) (hplain : Plain e.text) : Safe e ∧ ¬ OpensNegative e := by
  induction e with
  | number literal => exact ⟨trivial, not_false⟩
  | group e ih => exact absurd (hplain '(' List.mem_cons_self) (by decide)
  | neg e ih =>
      obtain ⟨hsafe, hopens⟩ := ih (plain_cons.mp hplain).2
      exact ⟨⟨hopens, hsafe⟩, not_false⟩
  | before e ih => exact ⟨(ih (plain_cons.mp hplain).2).1, not_false⟩
  | behind e ih => exact ih (plain_append.mp hplain).1
  | factor e ih | term e ih => exact ih hplain
  | mul a b iha ihb | div a b iha ihb | add a b iha ihb =>
      obtain ⟨hleft, hright⟩ := plain_append.mp hplain
      obtain ⟨hsafe, hopens⟩ := iha hleft
      exact ⟨⟨hsafe, (ihb (plain_cons.mp hright).2).1⟩, hopens⟩
  | sub a b iha ihb =>
      obtain ⟨hleft, hright⟩ := plain_append.mp hplain
      obtain ⟨hsafe, hopens⟩ := iha hleft
      obtain ⟨hsafeRight, hopensRight⟩ := ihb (plain_cons.mp hright).2
      exact ⟨⟨hsafe, hopensRight, hsafeRight⟩, hopens⟩

/-- Without groups nothing changes, so that no minus signs are in a row is enough. -/
theorem kept_of_plain (e : Expr k) (hplain : Plain e.text) (hclear : e.Clear) : Kept e :=
  (kept_iff e).mpr ⟨hclear, (safe_of_plain e hplain).1⟩

/-- A turn neither makes minus signs meet that would not have met, nor keeps them apart. -/
theorem kept_replaceGroups (hplain : Plain inner) (hinner : evaluate (inner ++ ['\n']) = some v)
    (hr : r.value = some v) (hjoins : Joins r ↔ v < 0) (hkept : Kept r) (e : Expr k) :
    Kept (replaceGroups inner r e) ↔ Kept e := by
  have hjoin : ∀ {k : Kind} (e : Expr k), Joins (replaceGroups inner r e) ↔ Joins e :=
    joins_replaceGroups hinner hr hjoins
  induction e with
  | number literal => rfl
  | group e ih =>
      rw [replaceGroups]
      by_cases hsame : e.text = inner
      · rw [if_pos hsame]
        have hclear := (value_of_text hinner hsame).1
        exact ⟨fun _ => kept_of_plain e (hsame ▸ hplain) hclear, fun _ => hkept⟩
      · rw [if_neg hsame]
        exact ih
  | neg e ih => exact and_congr (not_congr (hjoin e)) ih
  | before e ih | behind e ih | factor e ih | term e ih => exact ih
  | mul a b iha ihb | div a b iha ihb | add a b iha ihb => exact and_congr iha ihb
  | sub a b iha ihb => exact and_congr iha (and_congr (not_congr (hjoin b)) ihb)

theorem replaceGroups_of_not_holds (e : Expr k) (h : ¬ Holds inner e) :
    replaceGroups inner r e = e := by
  induction e with
  | number literal => rfl
  | group e ih =>
      rw [replaceGroups, if_neg fun hsame => h (.inl hsame), ih fun hholds => h (.inr hholds)]
  | neg e ih | before e ih | behind e ih | factor e ih | term e ih => rw [replaceGroups, ih h]
  | mul a b iha ihb | div a b iha ihb | add a b iha ihb | sub a b iha ihb =>
      rw [replaceGroups, iha fun hholds => h (.inl hholds), ihb fun hholds => h (.inr hholds)]

/-- What looks like a group in the text is one: the replacement takes a parenthesis away. -/
theorem holds_of_occurrence (hplain : Plain inner) (e : Expr k) (h : group inner <:+: e.text) :
    Holds inner e := by
  by_contra hnot
  have htext := text_replaceGroups (r := .number (.digit '0' rfl)) hplain e
  rw [replaceGroups_of_not_holds e hnot] at htext
  have hfewer := count_replaceAll_lt (r := ['0']) (a := '(') (by simp [group]) h
  have hsame : replaceAll (group inner) ['0'] e.text = e.text := htext.symm
  rw [hsame] at hfewer
  exact Nat.lt_irrefl _ hfewer

/-- The groups of an expression that has a value have values. -/
theorem evaluate_of_holds (e : Expr k) (h : Holds inner e) (hclear : e.Clear)
    {total : Int} (hvalue : e.value = some total) :
    ∃ (e : Expr .sum) (v : Int), e.text = inner ∧ evaluate (e.text ++ ['\n']) = some v := by
  induction e generalizing total with
  | number literal => cases h
  | group e ih =>
      cases h with
      | inl hsame =>
          exact ⟨e, total, hsame, (evaluate_eq_some_iff e).mpr ⟨hclear, hvalue⟩⟩
      | inr hholds => exact ih hholds hclear hvalue
  | neg e ih =>
      obtain ⟨w, hw, -⟩ := Option.map_eq_some_iff.mp hvalue
      exact ih h hclear.2 hw
  | before e ih | behind e ih | factor e ih | term e ih => exact ih h hclear hvalue
  | mul a b iha ihb | div a b iha ihb | add a b iha ihb =>
      obtain ⟨m, hm, hright⟩ := Option.bind_eq_some_iff.mp hvalue
      obtain ⟨n, hn, -⟩ := Option.bind_eq_some_iff.mp hright
      cases h with
      | inl hleft => exact iha hleft hclear.1 hm
      | inr hright => exact ihb hright hclear.2 hn
  | sub a b iha ihb =>
      obtain ⟨m, hm, hright⟩ := Option.bind_eq_some_iff.mp hvalue
      obtain ⟨n, hn, -⟩ := Option.bind_eq_some_iff.mp hright
      cases h with
      | inl hleft => exact iha hleft hclear.1 hm
      | inr hright => exact ihb hright hclear.2.2 hn

/-- Where a parenthesis is there is a group without one in it. -/
theorem exists_group (e : Expr k) (h : ¬ Plain e.text) :
    ∃ inner, Plain inner ∧ group inner <:+: e.text := by
  induction e with
  | number literal => exact absurd (plain_numeral literal.numeral) h
  | group e ih =>
      by_cases hplain : Plain e.text
      · exact ⟨e.text, hplain, List.infix_rfl⟩
      · obtain ⟨inner, hinner, hoccurs⟩ := ih hplain
        exact ⟨inner, hinner, hoccurs.trans ⟨['('], [')'], rfl⟩⟩
  | neg e ih | before e ih =>
      obtain ⟨inner, hinner, hoccurs⟩ := ih fun hplain => h (plain_cons.mpr ⟨rfl, hplain⟩)
      exact ⟨inner, hinner, hoccurs.trans (List.suffix_cons _ _).isInfix⟩
  | behind e ih =>
      obtain ⟨inner, hinner, hoccurs⟩ :=
        ih fun hplain => h (plain_append.mpr ⟨hplain, by simp [Plain, isParenthesis]⟩)
      exact ⟨inner, hinner, hoccurs.trans (List.prefix_append _ _).isInfix⟩
  | factor e ih | term e ih => exact ih h
  | mul a b iha ihb | div a b iha ihb | add a b iha ihb | sub a b iha ihb =>
      by_cases hplain : Plain a.text
      · obtain ⟨inner, hinner, hoccurs⟩ := ihb fun hright =>
          h (plain_append.mpr ⟨hplain, plain_cons.mpr ⟨rfl, hright⟩⟩)
        exact ⟨inner, hinner, hoccurs.trans
          ((List.suffix_cons _ _).trans (List.suffix_append _ _)).isInfix⟩
      · obtain ⟨inner, hinner, hoccurs⟩ := iha hplain
        exact ⟨inner, hinner, hoccurs.trans (List.prefix_append _ _).isInfix⟩

theorem echo_text (e : Expr k) : echo e.text = e.text ++ ['\n'] := by
  obtain ⟨c, hmem, hdigit⟩ := e.exists_digit
  exact echo_of_digit hmem hdigit

/-- `echo "$(...)"` hands a printed number on. -/
theorem echo_substitution_printed (h : Prints v out) :
    substitution (out ++ ['\n']) = out ∧ echo out = out ++ ['\n'] := by
  obtain ⟨front, c, rfl, hdigit⟩ := h.last
  constructor
  · apply substitution_line _ (Stdio.digit_ne hdigit rfl)
    intro hzero
    rcases h.mem hzero with hdigit | hc | hc | hc
    · cases hdigit
    · cases hc
    · cases hc
    · cases hc
  · exact echo_of_digit List.mem_concat_self hdigit

theorem innerResult_eq (hbc : IsBc bc printed) (e : Expr .sum)
    (h : evaluate (e.text ++ ['\n']) = some v) :
    substitution (calculateParentheses bc e.text) = printed v := by
  obtain ⟨hsubstitution, hecho⟩ := echo_substitution_printed (hbc.prints v)
  rw [calculateParentheses, echo_text, hbc.evaluated e v h, hsubstitution, hecho, hsubstitution]

theorem exists_operand (h : Prints v out) :
    ∃ r : Expr .factor, r.text = out ∧ r.value = some v ∧ (Joins r ↔ v < 0) ∧ Kept r := by
  cases h with
  | unsigned literal =>
      refine ⟨.number literal, rfl, rfl, ?_, trivial⟩
      simp [Joins, Expr.leads, OpensNegative]
  | minus literal hpos =>
      refine ⟨.neg (.number literal), rfl, rfl, ?_, ?_⟩
      · exact ⟨fun _ => by omega, fun _ => .inl rfl⟩
      · simp [Kept, Joins, Expr.leads, OpensNegative]

/-- A turn on an expression that has a value. -/
theorem turn_text (hbc : IsBc bc printed) (e : Expr .sum)
    (h : evaluate (e.text ++ ['\n']) = some v) :
    (turn bc e.text = none ∧ Kept e) ∨
      ∃ e' : Expr .sum, turn bc e.text = some e'.text ∧ e'.value = some v ∧
        (Kept e' ↔ Kept e) ∧ e'.text.count '(' < e.text.count '(' := by
  obtain ⟨hclear, hvalue⟩ := (evaluate_eq_some_iff e).mp h
  cases hgroup : firstGroup e.text with
  | none =>
      refine .inl ⟨turn_eq_none.mpr hgroup, kept_of_plain e ?_ hclear⟩
      by_contra hplain
      obtain ⟨inner, hinner, hoccurs⟩ := exists_group e hplain
      exact firstGroup_eq_none hgroup hinner (fun _ _ => rfl) hoccurs
  | some inner =>
      obtain ⟨hplain, -, hoccurs⟩ := firstGroup_spec hgroup
      have hholds := holds_of_occurrence hplain e hoccurs
      obtain ⟨x, w, hx, hw⟩ := evaluate_of_holds e hholds hclear hvalue
      subst hx
      obtain ⟨r, hrtext, hr, hjoins, hrkept⟩ := exists_operand (hbc.prints w)
      have hturn : turn bc e.text = some (replaceGroups x.text r e).text := by
        rw [turn, hgroup, Option.map_some, innerResult_eq hbc x hw, text_replaceGroups hplain,
          hrtext]
      refine .inr ⟨replaceGroups x.text r e, hturn, ?_, ?_, ?_⟩
      · rw [value_replaceGroups hw hr, hvalue]
      · exact kept_replaceGroups hplain hw hr hjoins hrkept e
      · apply count_turn_lt (by decide) _ hturn
        intro inner hinner hmem
        rw [hgroup] at hinner
        cases hinner
        rw [echo_text, hbc.evaluated x w hw] at hmem
        cases List.mem_append.mp hmem with
        | inl hmem => exact not_mem_of_plain (plain_prints (hbc.prints w)) rfl hmem
        | inr hmem => cases List.mem_singleton.mp hmem

/-- Where no two minus signs meet, a turn leaves an expression with the same value. -/
theorem keptText_turn (hbc : IsBc bc printed) (h : KeptText v text)
    (hturn : turn bc text = some next) :
    KeptText v next ∧ next.count '(' < text.count '(' := by
  obtain ⟨e, rfl, hkept, hvalue⟩ := h
  have heval := (evaluate_eq_some_iff e).mpr ⟨((kept_iff e).mp hkept).1, hvalue⟩
  rcases turn_text hbc e heval with ⟨hnone, -⟩ | ⟨e', hnext, hvalue', hiff, hfewer⟩
  · rw [hnone] at hturn
    cases hturn
  · rw [hnext] at hturn
    cases hturn
    exact ⟨⟨e', rfl, hiff.mpr hkept, hvalue'⟩, hfewer⟩

theorem keptText_turns (hbc : IsBc bc printed) (h : KeptText v text)
    (hturns : Turns bc text next) : KeptText v next := by
  induction hturns with
  | refl => exact h
  | tail _ hturn ih => exact (keptText_turn hbc ih hturn).1

theorem bc_keptText (hbc : IsBc bc printed) (h : KeptText v text) :
    bc (echo text) = printed v ++ ['\n'] := by
  obtain ⟨e, rfl, hkept, hvalue⟩ := h
  rw [echo_text]
  exact hbc.evaluated e v ((evaluate_eq_some_iff e).mpr ⟨((kept_iff e).mp hkept).1, hvalue⟩)

/-- Where `bc` prints the same in every turn no two minus signs meet. -/
theorem kept_of_turns (hbc : IsBc bc printed) (e : Expr .sum)
    (h : evaluate (e.text ++ ['\n']) = some v)
    (hsame : ∀ result, Turns bc e.text result → bc (echo result) = bc (echo e.text)) : Kept e := by
  induction hn : e.text.count '(' using Nat.strong_induction_on generalizing e with
  | _ n ih =>
      rcases turn_text hbc e h with ⟨-, hkept⟩ | ⟨next, hnext, hvalueNext, hiff, hfewer⟩
      · exact hkept
      · have hprinted := hsame next.text (.single hnext)
        have heval : evaluate (next.text ++ ['\n']) = some v := by
          cases hother : evaluate (next.text ++ ['\n']) with
          | none =>
              rw [echo_text, echo_text, hbc.refused next hother, hbc.evaluated e v h] at hprinted
              exact absurd hprinted.symm (List.concat_ne_nil _ _)
          | some w =>
              rw [← hvalueNext]
              exact ((evaluate_eq_some_iff next).mp hother).2.symm
        apply hiff.mp
        apply ih _ (hn ▸ hfewer) next heval _ rfl
        intro result hresult
        rw [hprinted]
        exact hsame result (.head hnext hresult)

/-- Putting the values of the groups in their places keeps the meaning of an expression with a
value if and only if no minus sign stands directly before a group with a negative value. -/
theorem meaningKept_iff_safe (hbc : IsBc bc printed) (e : Expr .sum)
    (h : evaluate (e.text ++ ['\n']) = some v) : MeaningKept bc e.text ↔ Safe e := by
  obtain ⟨hclear, hvalue⟩ := (evaluate_eq_some_iff e).mp h
  constructor
  · rintro ⟨hsame, -⟩
    exact ((kept_iff e).mp (kept_of_turns hbc e h hsame)).2
  · intro hsafe
    have hkept := (kept_iff e).mpr ⟨hclear, hsafe⟩
    have hwhole : KeptText v e.text := ⟨e, rfl, hkept, hvalue⟩
    have hprinted := bc_keptText hbc hwhole
    refine ⟨fun result hturns => ?_, ?_⟩
    · exact (bc_keptText hbc (keptText_turns hbc hwhole hturns)).trans hprinted.symm
    · have hends : ∃ result, reduce bc (e.text.count '(') e.text = some result ∧
          KeptText v result ∧ firstGroup result = none :=
        reduce_ends (fun _ _ => keptText_turn hbc) hwhole (Nat.le_refl _)
      obtain ⟨result, hresult, hlast, -⟩ := hends
      obtain ⟨hsubstitution, hecho⟩ := echo_substitution_printed (hbc.prints v)
      rw [calculate, hresult, Option.map_some, bc_keptText hbc hlast, hprinted]
      dsimp only
      rw [hsubstitution, hecho]

def plainBc (input : List Char) : List Char :=
  match evaluate input with
  | some v => Stdio.printInt v ++ ['\n']
  | none => []

theorem isBc_plainBc : IsBc plainBc Stdio.printInt where
  prints := prints_printInt
  evaluated e v h := by rw [plainBc, h]
  refused e h := by rw [plainBc, h]

theorem meaningKept_iff_safe_product : MeaningKept plainBc "2*(1-3)".toList := by
  have hsafe : Safe (.term (.mul (.factor (.number (.digit '2' rfl))) (.group (.sub
      (.term (.factor (.number (.digit '1' rfl)))) (.factor (.number (.digit '3' rfl))))))) :=
    ⟨trivial, trivial, not_false, trivial⟩
  exact (meaningKept_iff_safe isBc_plainBc _ (v := -4) (by decide)).mpr hsafe

/-- `3--1` is all that is left of the expression. -/
theorem minus_before_negative_group :
    calculate plainBc 1 "3-(1-2)".toList = some ['\n'] ∧
      plainBc (echo "3-(1-2)".toList) = ['4', '\n'] := by
  decide

end LinuxTraining.Calculator
