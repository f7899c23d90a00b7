import Mathlib.Data.List.Basic
import Mathlib.Data.List.Induction
import Mathlib.Data.List.Sort
import Mathlib.Tactic.Common

/-!
A ranking kept while its elements come one by one. Each of them is inserted before the
first one whose key is not smaller; so of two with the same key the later one comes first.
-/
namespace Ranking

variable {α κ : Type*}

variable [LinearOrder κ] (key : α → κ)

/-- Each element with the place at which it came, by ascending key; of two with the same
key the later one is first. -/
structure Ranked (l : List α) (ranking : List (α × Nat)) : Prop where
  perm : ranking.Perm l.zipIdx
  ascending : ranking.Pairwise fun x y =>
    key x.1 < key y.1 ∨ key x.1 = key y.1 ∧ y.2 < x.2

def place (a : α) (l : List α) : List α := l.orderedInsert (fun a b => key a ≤ key b) a

theorem place_of_le {a b : α} (l : List α) (h : key a ≤ key b) :
    place key a (b :: l) = a :: b :: l :=
  List.orderedInsert_cons_of_le (fun a b => key a ≤ key b) l h

theorem place_of_lt {a b : α} (l : List α) (h : key b < key a) :
    place key a (b :: l) = b :: place key a l :=
  List.orderedInsert_of_not_le (fun a b => key a ≤ key b) l (not_le.mpr h)

variable {key} {l : List α} {ranking : List (α × Nat)}

theorem ascending_place {x : α × Nat} (hlast : ∀ y ∈ ranking, y.2 < x.2)
    (h : ranking.Pairwise fun x y => key x.1 < key y.1 ∨ key x.1 = key y.1 ∧ y.2 < x.2) :
    (place (fun y => key y.1) x ranking).Pairwise fun x y =>
      key x.1 < key y.1 ∨ key x.1 = key y.1 ∧ y.2 < x.2 := by
  induction ranking with
  | nil => simp [place]
  | cons y ranking ih =>
      obtain ⟨hy, htail⟩ := List.pairwise_cons.mp h
      by_cases hle : key x.1 ≤ key y.1
      · rw [place_of_le (fun y : α × Nat => key y.1) _ hle]
        refine List.pairwise_cons.mpr ⟨fun z hz => ?_, h⟩
        have hkey : key x.1 ≤ key z.1 := by
          cases List.mem_cons.mp hz with
          | inl hfirst =>
              rw [hfirst]
              exact hle
          | inr hrest =>
              cases hy z hrest with
              | inl hless => exact hle.trans hless.le
              | inr hsame => exact hle.trans hsame.1.le
        exact (lt_or_eq_of_le hkey).imp_right fun hsame => ⟨hsame, hlast z hz⟩
      · rw [place_of_lt (fun y : α × Nat => key y.1) _ (not_le.mp hle)]
        refine List.pairwise_cons.mpr ⟨fun z hz => ?_, ?_⟩
        · cases (List.mem_orderedInsert _).mp hz with
          | inl hsame =>
              subst hsame
              exact .inl (not_le.mp hle)
          | inr hz =>
              exact hy z hz
        · exact ih (fun z hz => hlast z (List.mem_cons_of_mem _ hz)) htail

theorem Ranked.snoc (h : Ranked key l ranking) (a : α) :
    Ranked key (l ++ [a]) (place (fun y => key y.1) (a, l.length) ranking) where
  perm := by
    have hperm := (List.perm_orderedInsert (fun x y : α × Nat => key x.1 ≤ key y.1)
      (a, l.length) ranking).trans (h.perm.cons _)
    rw [List.zipIdx_append, Nat.zero_add]
    exact hperm.trans (List.perm_append_singleton _ _).symm
  ascending := by
    refine ascending_place (fun y hy => ?_) h.ascending
    have hbound := List.snd_lt_of_mem_zipIdx (h.perm.subset hy)
    simpa using hbound

/-- The elements one after the other make the ranking. -/
theorem ranked_foldl (key : α → κ) (l : List α) :
    ∃ ranking, Ranked key l ranking ∧
      ranking.map Prod.fst = l.foldl (fun ranked a => place key a ranked) [] := by
  induction l using List.reverseRecOn with
  | nil => exact ⟨[], ⟨List.Perm.refl _, List.Pairwise.nil⟩, rfl⟩
  | append_singleton l a ih =>
      obtain ⟨ranking, hranked, hmap⟩ := ih
      refine ⟨_, hranked.snoc a, ?_⟩
      rw [List.foldl_append, ← hmap, place, List.foldl_cons, List.foldl_nil, place]
      exact List.map_orderedInsert _ _ Prod.fst _ _ (fun _ _ => Iff.rfl) (fun _ _ => Iff.rfl)

end Ranking
