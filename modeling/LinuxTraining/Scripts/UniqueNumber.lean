import LinuxTraining.Library.Lines
import LinuxTraining.Library.Shell
import LinuxTraining.Library.UniqueLines
import Mathlib.Data.Char
import Mathlib.Data.List.Lex

/-!
The pipeline of `unique_number.sh`, from the line that is typed on. `sort` is the sorting of
lines by the order of the locale.
-/
namespace LinuxTraining.UniqueNumber
open Stdio Shell UniqueLines

def tr (input : List Char) : List Char := input.map fun c => if c = ' ' then '\n' else c

def readLines (input : List Char) : List (List Char) :=
  (lines input).map fun line => line.takeWhile fun c => c ≠ '\n'

def writeLines (output : List (List Char)) : List Char := output.flatMap fun line => line ++ ['\n']

def awk (input : List Char) : List Char := (readLines input).flatMap fun line => line ++ [' ']

/-- `${text##*[![:space:]]}`: what follows the last visible character, if there is one. -/
def afterVisible (text : List Char) : List Char := text.rtakeWhile isSpace

def removeSuffix (text suffix : List Char) : List Char :=
  if suffix <:+ text then text.take (text.length - suffix.length) else text

/-- The script, from the line `numbers` to the last `echo`. -/
def script (sort : List (List Char) → List (List Char)) (numbers : List Char) : List Char :=
  let num_array := substitution (tr (echo numbers))
  let unique_numbers := substitution (writeLines (uniq (sort (readLines (echo num_array)))))
  let unique_numbers := substitution (awk (echo unique_numbers))
  let unique_numbers := removeSuffix unique_numbers (afterVisible unique_numbers)
  echo unique_numbers

def spaced (tokens : List (List Char)) : List Char := [' '].intercalate tokens

/-- Digits, with a sign or without. -/
def IsInteger (token : List Char) : Prop :=
  ∃ sign digits, token = sign ++ digits ∧ (sign = [] ∨ sign = ['-'] ∨ sign = ['+']) ∧
    digits ≠ [] ∧ ∀ c ∈ digits, c.isDigit = true

def IsWord (token : List Char) : Prop := token ≠ [] ∧ ∀ c ∈ token, isSpace c = false

variable {tokens : List (List Char)} {token text : List Char} {sep : Char}
  {sort : List (List Char) → List (List Char)} {le : List Char → List Char → Prop}

theorem IsInteger.mem {c : Char} (h : IsInteger token) (hc : c ∈ token) :
    c.isDigit = true ∨ c = '-' ∨ c = '+' := by
  obtain ⟨sign, digits, rfl, hsign, -, hdigits⟩ := h
  cases List.mem_append.mp hc with
  | inl hc =>
      rcases hsign with rfl | rfl | rfl
      · cases hc
      · exact .inr (.inl (List.mem_singleton.mp hc))
      · exact .inr (.inr (List.mem_singleton.mp hc))
  | inr hc => exact .inl (hdigits c hc)

theorem IsInteger.exists_digit (h : IsInteger token) : ∃ c ∈ token, c.isDigit = true := by
  obtain ⟨sign, digits, rfl, -, hne, hdigits⟩ := h
  have hfirst := List.head_mem hne
  exact ⟨digits.head hne, List.mem_append_right _ hfirst, hdigits _ hfirst⟩

theorem IsInteger.isWord (h : IsInteger token) : IsWord token := by
  obtain ⟨c, hmem, -⟩ := h.exists_digit
  refine ⟨List.ne_nil_of_mem hmem, fun c hc => ?_⟩
  rcases h.mem hc with hdigit | rfl | rfl
  · exact (digit_not_special hdigit).1
  · rfl
  · rfl

theorem IsWord.ne (h : IsWord token) (sep : Char) (hsep : isSpace sep = true) :
    ∀ c ∈ token, c ≠ sep := by
  rintro c hc rfl
  rw [h.2 c hc] at hsep
  cases hsep

theorem intercalate_append_sep (hne : tokens ≠ []) :
    [sep].intercalate tokens ++ [sep] = tokens.flatMap fun token => token ++ [sep] := by
  induction tokens with
  | nil => exact absurd rfl hne
  | cons token rest ih =>
      cases rest with
      | nil => simp
      | cons next rest =>
          rw [List.intercalate_cons_cons, List.append_assoc, ih (List.cons_ne_nil _ _)]
          rfl

theorem intercalate_no_zero (h : ∀ token ∈ tokens, IsInteger token) (hsep : sep ≠ '\x00') :
    '\x00' ∉ [sep].intercalate tokens := by
  induction tokens with
  | nil => exact List.not_mem_nil
  | cons token rest ih =>
      have htoken : '\x00' ∉ token := by
        intro hzero
        rcases (h token List.mem_cons_self).mem hzero with hc | hc | hc <;> cases hc
      cases rest with
      | nil => rwa [List.intercalate_singleton]
      | cons next rest =>
          have hrest := ih fun t ht => h t (List.mem_cons_of_mem _ ht)
          rw [List.intercalate_cons_cons]
          simp only [List.mem_append, List.mem_singleton, not_or]
          exact ⟨⟨htoken, hsep.symm⟩, hrest⟩

theorem tr_word (h : IsWord token) : tr token = token := by
  have hsame : tr token = token.map id :=
    List.map_congr_left fun c hc => if_neg (h.ne ' ' rfl c hc)
  rw [hsame, List.map_id]

theorem tr_spaced (h : ∀ token ∈ tokens, IsWord token) :
    tr (spaced tokens) = ['\n'].intercalate tokens := by
  induction tokens with
  | nil => rfl
  | cons token rest ih =>
      have hword := tr_word (h token List.mem_cons_self)
      have hrest := ih fun t ht => h t (List.mem_cons_of_mem _ ht)
      cases rest with
      | nil =>
          rw [spaced, List.intercalate_singleton, List.intercalate_singleton]
          exact hword
      | cons next rest =>
          rw [spaced, List.intercalate_cons_cons, List.intercalate_cons_cons, tr, List.map_append,
            List.map_append]
          rw [tr] at hword hrest
          rw [hword]
          exact congrArg _ hrest

/-- Words with separators between them end with a visible character. -/
theorem exists_visible_last (sep : Char) (hne : tokens ≠ []) (h : ∀ token ∈ tokens, IsWord token) :
    ∃ front c, [sep].intercalate tokens = front ++ [c] ∧ isSpace c = false := by
  induction tokens with
  | nil => exact absurd rfl hne
  | cons token rest ih =>
      obtain ⟨hword, hvisible⟩ := h token List.mem_cons_self
      cases rest with
      | nil =>
          refine ⟨token.dropLast, token.getLast hword, ?_, hvisible _ (List.getLast_mem hword)⟩
          rw [List.intercalate_singleton, List.dropLast_append_getLast]
      | cons next rest =>
          obtain ⟨front, c, hfront, hc⟩ := ih (List.cons_ne_nil _ _)
            fun t ht => h t (List.mem_cons_of_mem _ ht)
          refine ⟨token ++ ([sep] ++ front), c, ?_, hc⟩
          rw [List.intercalate_cons_cons, hfront]
          simp

/-- A text without zero bytes that ends with a visible character goes through `$(...)`. -/
theorem substitution_intercalate (hne : tokens ≠ []) (h : ∀ token ∈ tokens, IsInteger token)
    (hsep : sep ≠ '\x00') :
    substitution ([sep].intercalate tokens ++ ['\n']) = [sep].intercalate tokens := by
  obtain ⟨front, c, hfront, hc⟩ := exists_visible_last sep hne fun t ht => (h t ht).isWord
  have hline : c ≠ '\n' := by
    rintro rfl
    cases hc
  rw [hfront]
  exact substitution_line (hfront ▸ intercalate_no_zero h hsep) hline

theorem echo_intercalate (h : ∀ token ∈ tokens, IsInteger token) :
    echo ([sep].intercalate tokens) = [sep].intercalate tokens ++ ['\n'] := by
  cases tokens with
  | nil => rfl
  | cons token rest =>
      obtain ⟨c, hmem, hdigit⟩ := (h token List.mem_cons_self).exists_digit
      refine echo_of_digit ?_ hdigit
      cases rest with
      | nil => exact List.intercalate_singleton.symm ▸ hmem
      | cons next rest =>
          rw [List.intercalate_cons_cons]
          exact List.mem_append_left _ (List.mem_append_left _ hmem)

/-- What was written line by line is read line by line. -/
theorem readLines_writeLines (h : ∀ token ∈ tokens, IsWord token) :
    readLines (writeLines tokens) = tokens := by
  induction tokens with
  | nil => rfl
  | cons token rest ih =>
      have hword := h token List.mem_cons_self
      have hline := hword.ne '\n' rfl
      have hrest := ih fun t ht => h t (List.mem_cons_of_mem _ ht)
      have hplain : '\n' ∉ token := fun hmem => hline _ hmem rfl
      have htoken : (token ++ ['\n']).takeWhile (fun c => c ≠ '\n') = token := by
        rw [List.takeWhile_append_of_pos fun c hc => decide_eq_true (hline c hc)]
        simp
      rw [readLines, writeLines, List.flatMap_cons, List.append_assoc, List.singleton_append,
        lines_line hplain, List.map_cons, htoken]
      exact congrArg (token :: ·) hrest

theorem intercalate_newline (hne : tokens ≠ []) :
    ['\n'].intercalate tokens ++ ['\n'] = writeLines tokens := intercalate_append_sep hne

theorem removeSuffix_append (text suffix : List Char) :
    removeSuffix (text ++ suffix) suffix = text := by
  rw [removeSuffix, if_pos (List.suffix_append text suffix), List.length_append,
    Nat.add_sub_cancel, List.take_left]

/-- The two expansions drop the white space at the end. -/
theorem removeSuffix_afterVisible (text : List Char) :
    removeSuffix text (afterVisible text) = text.rdropWhile isSpace := by
  have hparts := removeSuffix_append (text.rdropWhile isSpace) (text.rtakeWhile isSpace)
  rwa [List.rdropWhile_append_rtakeWhile] at hparts

/-- The lines that are left, one after the other with spaces between them. -/
theorem format_lines (h : ∀ token ∈ tokens, IsInteger token) :
    let unique_numbers := substitution (awk (echo (substitution (writeLines tokens))))
    removeSuffix unique_numbers (afterVisible unique_numbers) = spaced tokens := by
  dsimp only
  rw [removeSuffix_afterVisible]
  by_cases hne : tokens = []
  · subst hne
    rfl
  · have hword : ∀ token ∈ tokens, IsWord token := fun t ht => (h t ht).isWord
    have hzero : '\x00' ∉ spaced tokens ++ [' '] := fun hmem => by
      cases List.mem_append.mp hmem with
      | inl hmem => exact intercalate_no_zero h (by decide) hmem
      | inr hmem => cases List.mem_singleton.mp hmem
    rw [← intercalate_newline hne, substitution_intercalate hne h (by decide), echo_intercalate h,
      intercalate_newline hne, awk, readLines_writeLines hword, ← intercalate_append_sep hne]
    obtain ⟨front, c, hfront, hc⟩ := exists_visible_last ' ' hne hword
    rw [spaced, hfront] at hzero ⊢
    rw [substitution_concat hzero (by decide), List.rdropWhile_concat_pos _ _ _ rfl,
      List.rdropWhile_concat_neg _ _ _ (by simp [hc])]

/-- The script sorts the tokens and keeps those that differ from both neighbours. -/
theorem script_eq (sorts : Sorts le sort) (h : ∀ token ∈ tokens, IsInteger token) :
    script sort (spaced tokens) = echo (spaced (uniq (sort tokens))) := by
  have hkept : ∀ token ∈ uniq (sort tokens), IsInteger token := fun token hmem =>
    h token (List.count_pos_iff.mp (by rw [(mem_uniq_sort sorts).mp hmem]; exact Nat.one_pos))
  have hword : ∀ token ∈ tokens, IsWord token := fun t ht => (h t ht).isWord
  rw [script]
  by_cases hne : tokens = []
  · -- one empty line goes through the pipeline
    subst hne
    have hline : sort [[]] = [[]] := List.perm_singleton.mp (sorts.perm [[]])
    have hnone : sort [] = [] := List.perm_nil.mp (sorts.perm [])
    have hread : readLines (echo (substitution (tr (echo (spaced []))))) = [[]] := by decide
    rw [hread, hline, hnone]
    rfl
  · have hnewline : tr (echo (spaced tokens)) = ['\n'].intercalate tokens ++ ['\n'] := by
      rw [← tr_spaced hword, spaced, echo_intercalate h, tr, List.map_append]
      rfl
    rw [hnewline, substitution_intercalate hne h (by decide), echo_intercalate h,
      intercalate_newline hne, readLines_writeLines hword]
    exact congrArg echo (format_lines hkept)

/-- The tokens that occur once are printed in the order of sorting, for every order in which
they are typed; and if one occurs once and every other one twice, it is the one. -/
theorem unique_numbers_printed (sorts : Sorts le sort)
    (hinteger : ∀ token ∈ tokens, IsInteger token) :
    (∃ printed, script sort (spaced tokens) = echo (spaced printed) ∧ printed.Pairwise le ∧
      printed.Nodup ∧ ∀ token, token ∈ printed ↔ tokens.count token = 1) ∧
    (∀ typed, typed.Perm tokens → script sort (spaced typed) = script sort (spaced tokens)) ∧
    ∀ token, tokens.count token = 1 →
      (∀ other ∈ tokens, other ≠ token → tokens.count other = 2) →
      script sort (spaced tokens) = echo token := by
  have hscript := script_eq sorts hinteger
  refine ⟨⟨_, hscript, ?_, nodup_uniq_sort sorts tokens, fun token => mem_uniq_sort sorts⟩, ?_, ?_⟩
  · rw [uniq_sort sorts]
    exact (sorts.ordered tokens).filter _
  · intro typed hperm
    rw [hscript, script_eq sorts fun token hmem => hinteger token (hperm.mem_iff.mp hmem),
      sorts.sort_eq_of_perm hperm]
  · intro token hone htwice
    have honly : uniq (sort tokens) = [token] := by
      apply List.perm_singleton.mp
      apply (List.perm_ext_iff_of_nodup (nodup_uniq_sort sorts tokens)
        (List.nodup_singleton token)).mpr
      intro other
      rw [mem_uniq_sort sorts, List.mem_singleton]
      constructor
      · intro hother
        by_contra hne
        have hmem : other ∈ tokens := List.count_pos_iff.mp (hother ▸ Nat.one_pos)
        rw [htwice other hmem hne] at hother
        cases hother
      · rintro rfl
        exact hone
    rw [hscript, honly, spaced, List.intercalate_singleton]

def sortByCode (ls : List (List Char)) : List (List Char) := ls.insertionSort (· ≤ ·)

theorem sortByCode_sorts : Sorts (· ≤ ·) sortByCode where
  total := le_total
  trans := fun _ _ _ => le_trans
  antisymm := fun _ _ => le_antisymm
  perm := List.perm_insertionSort _
  ordered := List.pairwise_insertionSort _

theorem unique_numbers_printed_once :
    script sortByCode (spaced [['3'], ['-', '5'], ['3']]) = echo ['-', '5'] := by
  have hinteger : ∀ token ∈ [['3'], ['-', '5'], ['3']], IsInteger token := by
    intro token hmem
    simp only [List.mem_cons, List.not_mem_nil, or_false] at hmem
    rcases hmem with rfl | rfl | rfl
    · exact ⟨[], ['3'], rfl, .inl rfl, by simp, by simp⟩
    · exact ⟨['-'], ['5'], rfl, .inr (.inl rfl), by simp, by simp⟩
    · exact ⟨[], ['3'], rfl, .inl rfl, by simp, by simp⟩
  exact (unique_numbers_printed sortByCode_sorts hinteger).2.2 ['-', '5'] (by decide) (by decide)

end LinuxTraining.UniqueNumber
