import Mathlib.Data.List.Count
import Mathlib.Data.List.Perm.Basic
import Mathlib.Data.List.Sort

/-!
Sorting and neighbours. In a list that is sorted by a total order equal elements stand next
to each other, so what differs from both its neighbours occurs once in the whole list.
-/
namespace UniqueLines

variable {α : Type*} {le : α → α → Prop} {sort : List α → List α} {l l' : List α} {x : α}
  {before : Option α}

structure Sorts (le : α → α → Prop) (sort : List α → List α) : Prop where
  total : ∀ a b, le a b ∨ le b a
  trans : ∀ a b c, le a b → le b c → le a c
  antisymm : ∀ a b, le a b → le b a → a = b
  perm : ∀ l, (sort l).Perm l
  ordered : ∀ l, (sort l).Pairwise le

/-- The order decides the result of sorting. -/
theorem Sorts.sort_eq_of_perm (sorts : Sorts le sort) (h : l.Perm l') : sort l = sort l' :=
  ((sorts.perm l).trans (h.trans (sorts.perm l').symm)).eq_of_pairwise
    (fun a b _ _ => sorts.antisymm a b) (sorts.ordered l) (sorts.ordered l')

theorem Sorts.mem_sort (sorts : Sorts le sort) : x ∈ sort l ↔ x ∈ l := (sorts.perm l).mem_iff

/-- In a sorted list the equals of the first element come next. -/
theorem mem_iff_head (antisymm : ∀ a b, le a b → le b a → a = b)
    (ordered : (x :: l).Pairwise le) : x ∈ l ↔ l.head? = some x := by
  constructor
  · intro hmem
    cases l with
    | nil => cases hmem
    | cons y rest =>
        obtain ⟨hfirst, hrest⟩ := List.pairwise_cons.mp ordered
        cases hmem with
        | head => rfl
        | tail _ hlater =>
            have hback := (List.pairwise_cons.mp hrest).1 x hlater
            rw [antisymm x y (hfirst y List.mem_cons_self) hback]
            rfl
  · exact List.mem_of_mem_head?

section
variable [DecidableEq α]

def uniqFrom : (before : Option α) → List α → List α
  | _, [] => []
  | before, x :: rest =>
      if before ≠ some x ∧ rest.head? ≠ some x then x :: uniqFrom (some x) rest
      else uniqFrom (some x) rest

def uniq (l : List α) : List α := uniqFrom none l

variable [BEq α] [LawfulBEq α]

/-- The neighbours of a sorted list tell what occurs once in it. -/
theorem uniqFrom_eq_filter (antisymm : ∀ a b, le a b → le b a → a = b) (ordered : l.Pairwise le)
    (hbefore : ∀ b ∈ before, ∀ a ∈ l, le b a) :
    uniqFrom before l = l.filter fun a => l.count a = 1 ∧ before ≠ some a := by
  induction l generalizing before with
  | nil => rfl
  | cons x l ih =>
      obtain ⟨hfirst, hrest⟩ := List.pairwise_cons.mp ordered
      have htail := @ih (some x) hrest fun b hb => by
        cases hb
        exact hfirst
      have hlater : ∀ a ∈ l, ((x :: l).count a = 1 ∧ before ≠ some a) ↔
          (l.count a = 1 ∧ some x ≠ some a) := by
        intro a ha
        have hpos : 0 < l.count a := List.count_pos_iff.mpr ha
        rw [List.count_cons]
        by_cases hxa : x = a
        · subst hxa
          simp
          omega
        · have hnot : before ≠ some a := by
            rintro rfl
            exact hxa (antisymm x a (hfirst a ha) (hbefore a rfl x List.mem_cons_self))
          simp [hxa, hnot]
      have hhead : ((x :: l).count x = 1 ∧ before ≠ some x) ↔
          (before ≠ some x ∧ l.head? ≠ some x) := by
        have hcount : (x :: l).count x = 1 ↔ l.head? ≠ some x := by
          rw [List.count_cons_self, Nat.add_eq_right, List.count_eq_zero,
            mem_iff_head antisymm ordered]
        rw [hcount, and_comm]
      have hkept : l.filter (fun a => (x :: l).count a = 1 ∧ before ≠ some a) =
          l.filter fun a => l.count a = 1 ∧ some x ≠ some a :=
        List.filter_congr fun a ha => decide_eq_decide.mpr (hlater a ha)
      rw [uniqFrom, htail, List.filter_cons, hkept]
      by_cases hkeep : before ≠ some x ∧ l.head? ≠ some x
      · rw [if_pos hkeep, if_pos (decide_eq_true (hhead.mpr hkeep))]
      · rw [if_neg hkeep, if_neg fun h => hkeep (hhead.mp (of_decide_eq_true h))]

/-- After sorting, the neighbours tell what occurs once. -/
theorem uniq_sort (sorts : Sorts le sort) (l : List α) :
    uniq (sort l) = (sort l).filter fun a => l.count a = 1 := by
  rw [uniq, uniqFrom_eq_filter sorts.antisymm (sorts.ordered l) fun b hb => by cases hb]
  apply List.filter_congr
  intro a ha
  rw [(sorts.perm l).count_eq]
  simp

theorem mem_uniq_sort (sorts : Sorts le sort) : x ∈ uniq (sort l) ↔ l.count x = 1 := by
  rw [uniq_sort sorts, List.mem_filter, decide_eq_true_iff, sorts.mem_sort]
  constructor
  · exact And.right
  · intro h
    exact ⟨List.count_pos_iff.mp (h ▸ Nat.one_pos), h⟩

theorem nodup_uniq_sort (sorts : Sorts le sort) (l : List α) : (uniq (sort l)).Nodup := by
  apply List.nodup_iff_count_le_one.mpr
  intro a
  by_cases hmem : a ∈ uniq (sort l)
  · have hone := (mem_uniq_sort sorts).mp hmem
    rw [uniq_sort sorts, ← hone, ← (sorts.perm l).count_eq]
    exact List.Sublist.count_le a List.filter_sublist
  · rw [List.count_eq_zero_of_not_mem hmem]
    exact Nat.zero_le 1

end

end UniqueLines
