import Mathlib.Data.List.Basic
import Mathlib.Data.List.Infix
import Mathlib.Data.List.TakeWhile
import Mathlib.Tactic.Common

/-!
C strings as lists. A text inside an array ends before the first terminator,
and an array without one has no text: reading it runs past its end. `strstr`
gives the offset of the first occurrence.
-/
namespace CString
variable {α : Type*}

def Occurs (haystack needle : List α) (k : Nat) : Prop := needle <+: haystack.drop k

variable {haystack needle : List α} {k : Nat}

theorem Occurs.le (hne : needle ≠ []) (h : Occurs haystack needle k) :
    k + needle.length ≤ haystack.length := by
  have hlen := h.length_le
  have hpos := List.length_pos_iff.mpr hne
  rw [List.length_drop] at hlen
  omega

/-- Occurrences do not move when the text around them grows. -/
theorem occurs_append (before after : List α) (hfits : k + needle.length ≤ haystack.length) :
    Occurs (before ++ haystack ++ after) needle (before.length + k) ↔
      Occurs haystack needle k := by
  have hdrop : (before ++ haystack ++ after).drop (before.length + k) =
      haystack.drop k ++ after := by
    rw [List.append_assoc, List.drop_append, List.drop_eq_nil_of_le (by omega)]
    simp only [List.nil_append, Nat.add_sub_cancel_left]
    rw [List.drop_append_of_le_length (by omega)]
  rw [Occurs, hdrop, Occurs]
  constructor
  · intro h
    exact List.prefix_of_prefix_length_le h (List.prefix_append _ _) (by
      rw [List.length_drop]
      omega)
  · intro h
    exact h.trans (List.prefix_append _ _)

theorem front_append_cons (before after : List α) {c : α} (havoids : c ∉ needle) :
    needle <+: before ++ c :: after ↔ needle <+: before := by
  constructor
  · intro h
    by_cases hlen : needle.length ≤ before.length
    · exact List.prefix_of_prefix_length_le h (List.prefix_append _ _) hlen
    · have hshort : before ++ [c] <+: before ++ c :: after := ⟨after, by simp⟩
      have hover : before ++ [c] <+: needle := List.prefix_of_prefix_length_le hshort h (by
        rw [List.length_append, List.length_singleton]
        omega)
      exact absurd (hover.subset (by simp)) havoids
  · intro h
    exact h.trans (List.prefix_append _ _)

variable [DecidableEq α]

/-- The text at the start of an array; `nul` is the terminator. -/
def text (nul : α) (array : List α) : Option (List α) :=
  if nul ∈ array then some (array.takeWhile fun c => c ≠ nul) else none

theorem text_append (nul : α) (t rest : List α) :
    text nul (t ++ nul :: rest) = some (t.takeWhile fun c => c ≠ nul) := by
  rw [text, if_pos (by simp)]
  congr 1
  induction t with
  | nil => simp
  | cons c t ih =>
      by_cases hc : c = nul
      · simp [hc]
      · simpa [hc] using ih

theorem exists_append_eq (nul : α) (t rest : List α) :
    ∃ tail, t ++ nul :: rest = (t.takeWhile fun c => c ≠ nul) ++ nul :: tail := by
  induction t with
  | nil => exact ⟨rest, by simp⟩
  | cons c t ih =>
      by_cases hc : c = nul
      · exact ⟨t ++ nul :: rest, by simp [hc]⟩
      · obtain ⟨tail, htail⟩ := ih
        exact ⟨tail, by simp [hc, htail]⟩

theorem takeWhile_plain {nul : α} {t : List α} (ht : nul ∉ t) :
    (t.takeWhile fun c => c ≠ nul) = t :=
  List.takeWhile_eq_self_iff.mpr fun c hc => by
    simpa using fun h : c = nul => ht (h ▸ hc)

theorem not_mem_takeWhile (nul : α) (t : List α) : nul ∉ t.takeWhile fun c => c ≠ nul := by
  intro h
  simpa using List.mem_takeWhile_imp h

theorem text_plain {nul : α} (t rest : List α) (ht : nul ∉ t) :
    text nul (t ++ nul :: rest) = some t := by
  rw [text_append, takeWhile_plain ht]

def strstr (haystack needle : List α) : Option Nat :=
  match haystack with
  | [] => if needle = [] then some 0 else none
  | c :: rest =>
      if needle.isPrefixOf (c :: rest) then some 0 else (strstr rest needle).map (· + 1)

theorem strstr_some (h : strstr haystack needle = some k) :
    Occurs haystack needle k ∧ ∀ j, j < k → ¬ Occurs haystack needle j := by
  induction haystack generalizing k with
  | nil =>
      by_cases hempty : needle = []
      · simp only [strstr, hempty, if_true, Option.some.injEq] at h
        subst h
        simp [Occurs, hempty]
      · simp [strstr, hempty] at h
  | cons c rest ih =>
      by_cases hstarts : needle.isPrefixOf (c :: rest)
      · simp only [strstr, hstarts, if_true, Option.some.injEq] at h
        subst h
        exact ⟨by simpa [Occurs] using List.isPrefixOf_iff_prefix.mp hstarts, by simp⟩
      · simp only [strstr, hstarts] at h
        obtain ⟨m, hm, rfl⟩ := Option.map_eq_some_iff.mp h
        obtain ⟨hfound, hfirst⟩ := ih hm
        refine ⟨by simpa [Occurs] using hfound, ?_⟩
        intro j hj
        cases j with
        | zero =>
            intro hocc
            exact hstarts (List.isPrefixOf_iff_prefix.mpr (by simpa [Occurs] using hocc))
        | succ j => simpa [Occurs] using hfirst j (by omega)

theorem strstr_none (hne : needle ≠ []) (h : strstr haystack needle = none) :
    ∀ j, ¬ Occurs haystack needle j := by
  induction haystack with
  | nil =>
      intro j hocc
      simp [Occurs, hne] at hocc
  | cons c rest ih =>
      by_cases hstarts : needle.isPrefixOf (c :: rest)
      · simp [strstr, hstarts] at h
      · have hrest : strstr rest needle = none := by simpa [strstr, hstarts] using h
        intro j hocc
        cases j with
        | zero => exact hstarts (List.isPrefixOf_iff_prefix.mpr (by simpa [Occurs] using hocc))
        | succ j => exact ih hrest j (by simpa [Occurs] using hocc)

theorem strstr_eq_some_iff (hne : needle ≠ []) : strstr haystack needle = some k ↔
    Occurs haystack needle k ∧ ∀ j, j < k → ¬ Occurs haystack needle j := by
  refine ⟨strstr_some, ?_⟩
  rintro ⟨hocc, hfirst⟩
  cases h : strstr haystack needle with
  | none => exact absurd hocc (strstr_none hne h k)
  | some m =>
      obtain ⟨hm, hmin⟩ := strstr_some h
      have hle : ¬ m < k := fun hlt => hfirst m hlt hm
      have hge : ¬ k < m := fun hlt => hmin k hlt hocc
      rw [Nat.le_antisymm (Nat.not_lt.mp hge) (Nat.not_lt.mp hle)]

/-- No occurrence goes over a character that the needle does not have. -/
theorem strstr_append_cons (before after : List α) {c : α} (hne : needle ≠ [])
    (havoids : c ∉ needle) :
    strstr (before ++ c :: after) needle =
      (strstr before needle).or ((strstr after needle).map (before.length + 1 + ·)) := by
  induction before with
  | nil =>
      have hstarts : needle.isPrefixOf (c :: after) = false := by
        cases needle with
        | nil => exact absurd rfl hne
        | cons d needle =>
            have hd : d ≠ c := fun h => havoids (h ▸ List.mem_cons_self)
            simp [List.isPrefixOf, hd]
      simp [strstr, hstarts, hne, Nat.add_comm]
  | cons d before ih =>
      have hfront : needle.isPrefixOf (d :: (before ++ c :: after)) =
          needle.isPrefixOf (d :: before) := by
        have h := front_append_cons (d :: before) after havoids
        rw [List.cons_append] at h
        rw [Bool.eq_iff_iff, List.isPrefixOf_iff_prefix, List.isPrefixOf_iff_prefix, h]
      rw [List.cons_append, strstr, strstr, hfront, ih]
      by_cases hstarts : needle.isPrefixOf (d :: before)
      · simp [hstarts]
      · cases strstr before needle with
        | some k => simp [hstarts]
        | none =>
            cases strstr after needle with
            | none => simp [hstarts]
            | some k =>
                simp [hstarts]
                omega

/-- The last place of a character in a text, and what follows it. -/
def strrchr : List α → α → Option (List α)
  | [], _ => none
  | d :: rest, c => (strrchr rest c).or (if d = c then some (d :: rest) else none)

theorem strrchr_none {t : List α} {c : α} : strrchr t c = none ↔ c ∉ t := by
  induction t with
  | nil => simp [strrchr]
  | cons d rest ih =>
      rw [strrchr, Option.or_eq_none_iff, ih, List.mem_cons, not_or, and_comm]
      by_cases hd : d = c
      · simp [hd]
      · simp [hd, Ne.symm hd]

theorem strrchr_append_cons (before : List α) {after : List α} {c : α} (hlast : c ∉ after) :
    strrchr (before ++ c :: after) c = some (c :: after) := by
  induction before with
  | nil => rw [List.nil_append, strrchr, strrchr_none.mpr hlast, Option.none_or, if_pos rfl]
  | cons d before ih => rw [List.cons_append, strrchr, ih, Option.some_or]

/-- A text that has the character is split at its last place. -/
theorem exists_last {t : List α} {c : α} (h : c ∈ t) :
    ∃ before after, t = before ++ c :: after ∧ c ∉ after := by
  induction t with
  | nil => exact absurd h List.not_mem_nil
  | cons d rest ih =>
      by_cases hrest : c ∈ rest
      · obtain ⟨before, after, rfl, hlast⟩ := ih hrest
        exact ⟨d :: before, after, rfl, hlast⟩
      · cases List.mem_cons.mp h with
        | inl hd => exact ⟨[], rest, by rw [hd]; rfl, hrest⟩
        | inr hmem => exact absurd hmem hrest

/-- The tokens that successive calls of `strtok` give: the non-empty parts of the text
between delimiters. -/
def tokens (delim : α) (t : List α) : List (List α) :=
  (t.splitOn delim).filter fun token => token ≠ []

theorem not_mem_of_mem_splitOn {delim : α} {t token : List α} (h : token ∈ t.splitOn delim) :
    delim ∉ token := by
  induction t generalizing token with
  | nil =>
      rw [List.splitOn_nil, List.mem_singleton] at h
      simp [h]
  | cons c t ih =>
      rw [List.splitOn_cons_eq_if_modifyHead] at h
      by_cases hc : c = delim
      · rw [if_pos (by simpa using hc)] at h
        cases List.mem_cons.mp h with
        | inl hsame =>
            subst hsame
            simp
        | inr h =>
            exact ih h
      · rw [if_neg (by simpa using hc)] at h
        cases hparts : t.splitOn delim with
        | nil => exact absurd hparts (List.splitOn_ne_nil _ _)
        | cons first parts =>
            rw [hparts, List.modifyHead_cons] at h
            cases List.mem_cons.mp h with
            | inl hsame =>
                subst hsame
                have hfirst : delim ∉ first := ih (by simp [hparts])
                simpa [hfirst] using fun h => hc h.symm
            | inr h =>
                exact ih (by simp [hparts, h])

/-- A token is not empty and has no delimiter. -/
theorem mem_tokens {delim : α} {t token : List α} (h : token ∈ tokens delim t) :
    token ≠ [] ∧ delim ∉ token := by
  obtain ⟨hsplit, hne⟩ := List.mem_filter.mp h
  exact ⟨by simpa using hne, not_mem_of_mem_splitOn hsplit⟩

variable {delim : α} {word rest : List α}

theorem splitOn_word_append (h : delim ∉ word) :
    (word ++ rest).splitOn delim = (rest.splitOn delim).modifyHead (word ++ ·) := by
  induction word with
  | nil => cases h : rest.splitOn delim <;> simp [h]
  | cons c word ih =>
      have hc : c ≠ delim := fun hc => h (hc ▸ List.mem_cons_self)
      have hword : delim ∉ word := fun hword => h (List.mem_cons_of_mem c hword)
      rw [List.cons_append, List.splitOn_cons_eq_if_modifyHead, if_neg (by simpa using hc),
        ih hword]
      cases rest.splitOn delim <;> simp

theorem tokens_nil : tokens delim ([] : List α) = [] := by
  simp [tokens, List.splitOn_nil]

theorem tokens_delim (rest : List α) : tokens delim (delim :: rest) = tokens delim rest := by
  have hsplit : (delim :: rest).splitOn delim = [] :: rest.splitOn delim :=
    List.splitOn_append_cons_self_of_not_mem (List.not_mem_nil (a := delim)) rest
  rw [tokens, hsplit]
  rfl

/-- A word and a delimiter make a token. -/
theorem tokens_word_delim (rest : List α) (hne : word ≠ []) (h : delim ∉ word) :
    tokens delim (word ++ delim :: rest) = word :: tokens delim rest := by
  rw [tokens, List.splitOn_append_cons_self_of_not_mem h]
  simp [tokens, hne]

/-- A word in front of a token becomes a part of it. -/
theorem tokens_word_append (hne : word ≠ []) (h : delim ∉ word) {c : α} (hc : c ≠ delim) :
    tokens delim (word ++ c :: rest) = (tokens delim (c :: rest)).modifyHead (word ++ ·) := by
  have hsplit : ∃ first parts, (c :: rest).splitOn delim = (c :: first) :: parts := by
    rw [List.splitOn_cons_eq_if_modifyHead, if_neg (by simpa using hc)]
    cases hrest : rest.splitOn delim with
    | nil => exact absurd hrest (List.splitOn_ne_nil _ _)
    | cons first parts => exact ⟨first, parts, rfl⟩
  obtain ⟨first, parts, hsplit⟩ := hsplit
  rw [tokens, splitOn_word_append h, tokens, hsplit]
  simp [hne]

end CString
