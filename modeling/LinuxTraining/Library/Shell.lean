import LinuxTraining.Library.Stdio
import Mathlib.Data.List.Count
import Mathlib.Data.List.DropRight
import Mathlib.Data.List.Infix
import Mathlib.Tactic.Common

/-!
Texts in the shell: the builtin `echo`, the substitution of a command by its output, and the
replacement of every occurrence of a text in another one.
-/
namespace Shell

/-- The elements of texts: the characters of the locale, and what is none. -/
class Alphabet (α : Type*) where
  char : Char → α
  isChar : α → Bool

open Alphabet

instance : Alphabet Char := ⟨fun c => c, fun _ => true⟩

@[simp] theorem char_char (c : Char) : (char c : Char) = c := rfl

/-- What a string is in a locale with long characters: a byte that is part of no character
stands for itself. -/
inductive Element where
  | char (c : Char)
  | byte (b : UInt8)
  deriving DecidableEq

def Element.isChar : Element → Bool
  | .char _ => true
  | .byte _ => false

instance : Alphabet Element := ⟨.char, Element.isChar⟩

section
variable {α : Type*} [DecidableEq α] [Alphabet α]

def Valid (text : List α) : Prop := ∀ a ∈ text, isChar a = true

def isOption (word : List α) : Bool :=
  word.head? = some (char '-') && word.tail ≠ [] &&
    word.tail.all fun a => a = char 'n' || a = char 'e' || a = char 'E'

def echo (text : List α) : List α :=
  if isOption text then if char 'n' ∈ text then [] else [char '\n'] else text ++ [char '\n']

/-- `$(...)`: the output without its zero bytes and without the newlines at the end. -/
def substitution (output : List α) : List α :=
  (output.filter fun a => a ≠ char '\x00').rdropWhile fun a => a = char '\n'

theorem mem_of_mem_echo {text : List α} {a : α} (h : a ∈ echo text) (ha : a ≠ char '\n') :
    a ∈ text := by
  rw [echo] at h
  split at h
  · split at h
    · cases h
    · exact absurd (List.mem_singleton.mp h) ha
  · cases List.mem_append.mp h with
    | inl h => exact h
    | inr h => exact absurd (List.mem_singleton.mp h) ha

theorem mem_of_mem_substitution {output : List α} {a : α} (h : a ∈ substitution output) :
    a ∈ output :=
  List.mem_of_mem_filter ((List.rdropWhile_prefix _ _).subset h)

end

theorem echo_eq {text : List Char} {c : Char} (hmem : c ∈ text) (hminus : c ≠ '-')
    (hletter : c ≠ 'n' ∧ c ≠ 'e' ∧ c ≠ 'E') : echo text = text ++ ['\n'] := by
  apply if_neg
  intro hoption
  simp only [isOption, char_char, Bool.and_eq_true, decide_eq_true_eq, List.all_eq_true,
    Bool.or_eq_true] at hoption
  obtain ⟨⟨hhead, -⟩, hletters⟩ := hoption
  cases text with
  | nil => cases hmem
  | cons first rest =>
      cases hhead
      cases hmem with
      | head => exact hminus rfl
      | tail _ hmem =>
          rcases hletters c hmem with (hn | he) | hE
          · exact hletter.1 hn
          · exact hletter.2.1 he
          · exact hletter.2.2 hE

/-- A text with a digit in it is no options. -/
theorem echo_of_digit {text : List Char} {c : Char} (hmem : c ∈ text) (h : c.isDigit = true) :
    echo text = text ++ ['\n'] := by
  have hother : ∀ d : Char, d.isDigit = false → c ≠ d := fun _ => Stdio.digit_ne h
  exact echo_eq hmem (hother '-' rfl) ⟨hother 'n' rfl, hother 'e' rfl, hother 'E' rfl⟩

theorem substitution_eq {output : List Char} (h : '\x00' ∉ output) :
    substitution output = output.rdropWhile fun c => c = '\n' := by
  have hkept : output.filter (fun c => c ≠ '\x00') = output :=
    List.filter_eq_self.mpr fun c hc => decide_eq_true fun hzero => h (hzero ▸ hc)
  simp only [substitution, char_char, hkept]

theorem substitution_concat {text : List Char} {c : Char} (hzero : '\x00' ∉ text ++ [c])
    (hc : c ≠ '\n') : substitution (text ++ [c]) = text ++ [c] := by
  rw [substitution_eq hzero, List.rdropWhile_concat_neg _ _ _ (by simpa using hc)]

theorem substitution_line {text : List Char} {c : Char} (hzero : '\x00' ∉ text ++ [c])
    (hc : c ≠ '\n') : substitution (text ++ [c] ++ ['\n']) = text ++ [c] := by
  have hline : '\x00' ∉ text ++ [c] ++ ['\n'] := fun hmem => by
    cases List.mem_append.mp hmem with
    | inl hmem => exact hzero hmem
    | inr hmem => cases List.mem_singleton.mp hmem
  rw [substitution_eq hline, List.rdropWhile_concat_pos _ _ _ (by simp),
    List.rdropWhile_concat_neg _ _ _ (by simpa using hc)]

section
variable {α : Type*} [DecidableEq α] {p r text front back : List α} {a : α}

/-- The rest of a replacement; the next `skip` elements belong to an occurrence of `p`. -/
def replaceFrom (p r : List α) : (skip : Nat) → List α → List α
  | _, [] => []
  | skip + 1, _ :: rest => replaceFrom p r skip rest
  | 0, a :: rest =>
      if p <+: a :: rest then r ++ replaceFrom p r (p.length - 1) rest
      else a :: replaceFrom p r 0 rest

/-- `${text//p/r}`: each occurrence of `p` is replaced by `r`, from left to right. -/
def replaceAll (p r text : List α) : List α :=
  if p = [] then text else replaceFrom p r 0 text

theorem replaceFrom_drop (p r : List α) (skip : Nat) (text : List α) :
    replaceFrom p r skip text = replaceFrom p r 0 (text.drop skip) := by
  induction skip generalizing text with
  | zero => rfl
  | succ skip ih =>
      cases text with
      | nil => rfl
      | cons a rest => exact ih rest

@[simp] theorem replaceAll_nil : replaceAll p r [] = [] := by
  rw [replaceAll]
  split <;> rfl

/-- An occurrence at the front is replaced. -/
theorem replaceAll_append_left (hp : p ≠ []) (rest : List α) :
    replaceAll p r (p ++ rest) = r ++ replaceAll p r rest := by
  rw [replaceAll, replaceAll, if_neg hp, if_neg hp]
  cases p with
  | nil => exact absurd rfl hp
  | cons a p =>
      have hfront : a :: p <+: a :: (p ++ rest) := List.prefix_append (a :: p) rest
      rw [List.cons_append, replaceFrom, if_pos hfront, replaceFrom_drop]
      simp

/-- Where no occurrence begins the text stays. -/
theorem replaceAll_cons {rest : List α} (h : ¬ p <+: a :: rest) :
    replaceAll p r (a :: rest) = a :: replaceAll p r rest := by
  have hp : p ≠ [] := by
    rintro rfl
    exact h List.nil_prefix
  rw [replaceAll, replaceAll, if_neg hp, if_neg hp, replaceFrom, if_neg h]

/-- Induction along the occurrences of `p` in a text, from left to right. -/
theorem occurrence_induction {P : List α → Prop} (hp : p ≠ []) (nil : P [])
    (occurrence : ∀ rest, P rest → P (p ++ rest))
    (other : ∀ a rest, ¬ p <+: a :: rest → P rest → P (a :: rest)) (text : List α) : P text := by
  induction h : text.length using Nat.strong_induction_on generalizing text with
  | _ n ih =>
      subst h
      cases text with
      | nil => exact nil
      | cons a rest =>
          by_cases hfront : p <+: a :: rest
          · obtain ⟨back, hback⟩ := hfront
            rw [← hback]
            have hpos : 0 < p.length := List.length_pos_of_ne_nil hp
            exact occurrence back (ih back.length (by simp [← hback, hpos]) back rfl)
          · exact other a rest hfront (ih rest.length (by simp) rest rfl)

theorem count_replaceAll_le (h : r.count a ≤ p.count a) (text : List α) :
    (replaceAll p r text).count a ≤ text.count a := by
  by_cases hp : p = []
  · exact (congrArg (List.count a) (if_pos hp)).le
  induction text using occurrence_induction hp with
  | nil => simp
  | occurrence rest ih =>
      rw [replaceAll_append_left hp, List.count_append, List.count_append]
      exact Nat.add_le_add h ih
  | other b rest hnot ih =>
      rw [replaceAll_cons hnot, List.count_cons, List.count_cons]
      exact Nat.add_le_add_right ih _

/-- An element that occurs less often in the replacement gets rarer. -/
theorem count_replaceAll_lt (h : r.count a < p.count a) (hoccurs : p <:+: text) :
    (replaceAll p r text).count a < text.count a := by
  have hp : p ≠ [] := by
    rintro rfl
    cases h
  induction text using occurrence_induction hp with
  | nil => exact absurd (List.infix_nil.mp hoccurs) hp
  | occurrence rest ih =>
      rw [replaceAll_append_left hp, List.count_append, List.count_append]
      exact Nat.add_lt_add_of_lt_of_le h (count_replaceAll_le h.le rest)
  | other b rest hnot ih =>
      rw [replaceAll_cons hnot, List.count_cons, List.count_cons]
      cases List.infix_cons_iff.mp hoccurs with
      | inl hfront => exact absurd hfront hnot
      | inr hlater => exact Nat.add_lt_add_right (ih hlater) _

theorem replaceAll_of_notMem (hmem : a ∈ p) (hnot : a ∉ text) : replaceAll p r text = text := by
  induction text with
  | nil => exact replaceAll_nil
  | cons b rest ih =>
      rw [replaceAll_cons fun hfront => hnot (hfront.subset hmem),
        ih fun hrest => hnot (List.mem_cons_of_mem b hrest)]

/-- Two texts are treated apart if no occurrence can reach from the first into the second. -/
theorem replaceAll_append (hp : p ≠ [])
    (hapart : ∀ begun rest, p = begun ++ rest → begun ≠ [] → rest ≠ [] → ¬ begun <:+ front) :
    replaceAll p r (front ++ back) = replaceAll p r front ++ replaceAll p r back := by
  induction front using occurrence_induction hp with
  | nil => rw [replaceAll_nil, List.nil_append, List.nil_append]
  | occurrence front ih =>
      rw [List.append_assoc, replaceAll_append_left hp, replaceAll_append_left hp,
        List.append_assoc, ih]
      intro begun rest hsplit hbegun hrest hsuffix
      exact hapart begun rest hsplit hbegun hrest (hsuffix.trans (List.suffix_append p front))
  | other a front hnot ih =>
      have hwhole : ¬ p <+: a :: (front ++ back) := by
        intro hfront
        rw [← List.cons_append] at hfront
        cases List.prefix_or_prefix_of_prefix hfront (List.prefix_append (a :: front) back) with
        | inl hshort => exact hnot hshort
        | inr hlong =>
            obtain ⟨rest, hrest⟩ := hlong
            refine hapart (a :: front) rest hrest.symm (List.cons_ne_nil _ _) ?_ List.suffix_rfl
            rintro rfl
            exact hnot (by rw [← hrest, List.append_nil])
      rw [List.cons_append, replaceAll_cons hwhole, replaceAll_cons hnot, List.cons_append, ih]
      intro begun rest hsplit hbegun hrest hsuffix
      exact hapart begun rest hsplit hbegun hrest (hsuffix.trans (List.suffix_cons a front))

end

end Shell
