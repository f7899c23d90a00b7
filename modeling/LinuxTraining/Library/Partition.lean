import Mathlib.Data.List.Basic
import Mathlib.Tactic.Common

/-!
Partitions of a set of addresses into cells. A cell starts at `a` and occupies
`[a, a + len a)`. The operations of a block structure keep a partition: a cell
is cut in two, or a new region arrives as one cell.
-/
namespace Partition

/-- The cells are disjoint and together occupy exactly the addresses in `R`. -/
structure Cells (cells : List Nat) (len : Nat → Nat) (R : Nat → Prop) : Prop where
  positive : ∀ a ∈ cells, 0 < len a
  inside : ∀ a ∈ cells, ∀ x, a ≤ x → x < a + len a → R x
  disjoint : ∀ a ∈ cells, ∀ b ∈ cells, a ≠ b → a + len a ≤ b ∨ b + len b ≤ a
  cover : ∀ x, R x → ∃ a ∈ cells, a ≤ x ∧ x < a + len a

variable {cells : List Nat} {len len' : Nat → Nat} {R : Nat → Prop}

theorem Cells.nil : Cells [] len (fun _ => False) :=
  ⟨by simp, by simp, by simp, fun _ h => h.elim⟩

theorem Cells.congr (h : Cells cells len R) (same : ∀ a ∈ cells, len' a = len a) :
    Cells cells len' R where
  positive a ha := by
    rw [same a ha]
    exact h.positive a ha
  inside a ha x := by
    rw [same a ha]
    exact h.inside a ha x
  disjoint a ha b hb := by
    rw [same a ha, same b hb]
    exact h.disjoint a ha b hb
  cover x hx := by
    obtain ⟨a, ha, hcell⟩ := h.cover x hx
    exact ⟨a, ha, by rwa [same a ha]⟩

theorem Cells.start_mem (h : Cells cells len R) {a : Nat} (ha : a ∈ cells) : R a :=
  h.inside a ha a (Nat.le_refl a) (by have := h.positive a ha; omega)

/-- Cutting the cell `a` at `b` leaves a partition of the same addresses. -/
theorem Cells.cut (h : Cells cells len R) (len' : Nat → Nat) {a b : Nat} (ha : a ∈ cells)
    (hlow : a < b) (hhigh : b < a + len a) (hfirst : len' a = b - a)
    (hsecond : len' b = a + len a - b)
    (same : ∀ c ∈ cells, c ≠ a → len' c = len c) :
    Cells (b :: cells) len' R := by
  have hnew : b ∉ cells := by
    intro hb
    have hne : b ≠ a := by omega
    have hpos := h.positive b hb
    have := h.disjoint b hb a ha hne
    omega
  have hlen : ∀ c ∈ cells, c ≠ a → len' c = len c ∧ 0 < len c ∧
      (c + len c ≤ a ∨ a + len a ≤ c) := fun c hc hne =>
    ⟨same c hc hne, h.positive c hc, h.disjoint c hc a ha hne⟩
  constructor
  · intro c hc
    cases List.mem_cons.mp hc with
    | inl hsame =>
        subst hsame
        omega
    | inr hc =>
        by_cases hca : c = a
        · subst hca
          omega
        · obtain ⟨heq, hpos, _⟩ := hlen c hc hca
          omega
  · intro c hc x hx1 hx2
    cases List.mem_cons.mp hc with
    | inl hsame =>
        subst hsame
        exact h.inside a ha x (by omega) (by omega)
    | inr hc =>
        by_cases hca : c = a
        · subst hca
          exact h.inside c ha x hx1 (by omega)
        · obtain ⟨heq, _, _⟩ := hlen c hc hca
          exact h.inside c hc x hx1 (by omega)
  · intro c hc d hd hne
    rcases List.mem_cons.mp hc with rfl | hold <;> rcases List.mem_cons.mp hd with rfl | hdold
    · exact absurd rfl hne
    · by_cases hda : d = a
      · subst hda
        omega
      · have := hlen d hdold hda
        omega
    · by_cases hca : c = a
      · subst hca
        omega
      · have := hlen c hold hca
        omega
    · by_cases hca : c = a
      · subst hca
        have := hlen d hdold (Ne.symm hne)
        omega
      · by_cases hda : d = a
        · subst hda
          have := hlen c hold hca
          omega
        · have h1 := hlen c hold hca
          have h2 := hlen d hdold hda
          have := h.disjoint c hold d hdold hne
          omega
  · intro x hx
    obtain ⟨c, hc, hcell⟩ := h.cover x hx
    by_cases hca : c = a
    · subst hca
      by_cases hxb : x < b
      · exact ⟨c, List.mem_cons_of_mem _ hc, by omega⟩
      · exact ⟨b, List.mem_cons_self, by omega⟩
    · have := hlen c hc hca
      exact ⟨c, List.mem_cons_of_mem _ hc, by omega⟩

/-- A region disjoint from the partitioned set arrives as one new cell. -/
theorem Cells.insert (h : Cells cells len R) (len' : Nat → Nat) {b n : Nat} (hpos : 0 < n)
    (fresh : ∀ x, b ≤ x → x < b + n → ¬ R x) (hlen : len' b = n)
    (same : ∀ c ∈ cells, len' c = len c) :
    Cells (b :: cells) len' (fun x => (b ≤ x ∧ x < b + n) ∨ R x) := by
  have apart : ∀ c ∈ cells, c + len c ≤ b ∨ b + n ≤ c := by
    intro c hc
    by_contra hover
    have hcpos := h.positive c hc
    by_cases hcb : b ≤ c
    · exact fresh c hcb (by omega) (h.start_mem hc)
    · exact fresh b (Nat.le_refl b) (by omega) (h.inside c hc b (by omega) (by omega))
  constructor
  · intro c hc
    cases List.mem_cons.mp hc with
    | inl hsame =>
        subst hsame
        omega
    | inr hc =>
        rw [same c hc]
        exact h.positive c hc
  · intro c hc x hx1 hx2
    cases List.mem_cons.mp hc with
    | inl hsame =>
        subst hsame
        exact Or.inl (by omega)
    | inr hc =>
        exact Or.inr (h.inside c hc x hx1 (by rwa [← same c hc]))
  · intro c hc d hd hne
    rcases List.mem_cons.mp hc with rfl | hold <;> rcases List.mem_cons.mp hd with rfl | hdold
    · exact absurd rfl hne
    · have h1 := apart d hdold
      have h2 := same d hdold
      omega
    · have h1 := apart c hold
      have h2 := same c hold
      omega
    · rw [same c hold, same d hdold]
      exact h.disjoint c hold d hdold hne
  · rintro x (hx | hx)
    · exact ⟨b, List.mem_cons_self, by omega⟩
    · obtain ⟨c, hc, hcell⟩ := h.cover x hx
      exact ⟨c, List.mem_cons_of_mem _ hc, by rwa [same c hc]⟩

end Partition
