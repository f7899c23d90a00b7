import Mathlib.Logic.Basic
import Mathlib.Data.Option.Basic
import Mathlib.Tactic.Common

/-!
Runs of a program given by a partial step function. An event names the party
that moves and what its environment answers; `step s a = none` says that the
event cannot happen in `s`. A property of every run is proved from what one
step preserves, possibly under a condition on each step of the run.
-/
namespace Execution
variable {σ α : Type*}

/-- The state after the listed events, when each of them can happen in turn. -/
def run (step : σ → α → Option σ) : σ → List α → Option σ
  | s, [] => some s
  | s, a :: as =>
      match step s a with
      | none => none
      | some t => run step t as

/-- Every step of the run meets `C`, a condition on the state before the step
and the event. -/
def Along (step : σ → α → Option σ) (C : σ → α → Prop) : σ → List α → Prop
  | _, [] => True
  | s, a :: as =>
      C s a ∧
      match step s a with
      | none => True
      | some t => Along step C t as

instance along_decidable (step : σ → α → Option σ) (C : σ → α → Prop)
    [∀ s a, Decidable (C s a)] : (s : σ) → (as : List α) → Decidable (Along step C s as)
  | _, [] => isTrue trivial
  | s, a :: as =>
      match h : step s a with
      | none => decidable_of_iff (C s a) (by simp [Along, h])
      | some t =>
          have := along_decidable step C t as
          decidable_of_iff (C s a ∧ Along step C t as) (by simp [Along, h])

def Always (step : σ → α → Option σ) (P : σ → Prop) (s : σ) (as : List α) : Prop :=
  ∀ bs cs t, as = bs ++ cs → run step s bs = some t → P t

variable {step : σ → α → Option σ}

theorem run_cons {s u : σ} {a : α} {as : List α} :
    run step s (a :: as) = some u ↔ ∃ t, step s a = some t ∧ run step t as = some u := by
  have hrun : run step s (a :: as) =
      match step s a with
      | none => none
      | some t => run step t as := rfl
  rw [hrun]
  cases step s a with
  | none =>
      constructor
      · intro h
        cases h
      · intro h
        obtain ⟨t, ht, hu⟩ := h
        cases ht
  | some m =>
      constructor
      · intro h
        exact ⟨m, rfl, h⟩
      · intro h
        obtain ⟨t, ht, hu⟩ := h
        cases ht
        exact hu

theorem along_cons {C : σ → α → Prop} {s t : σ} {a : α} {as : List α}
    (h : step s a = some t) :
    Along step C s (a :: as) ↔ C s a ∧ Along step C t as := by
  rw [Along, h]

theorem run_append {s u : σ} {as bs : List α} :
    run step s (as ++ bs) = some u ↔
      ∃ t, run step s as = some t ∧ run step t bs = some u := by
  induction as generalizing s with
  | nil => simp [run]
  | cons a as ih =>
      simp only [List.cons_append, run_cons, ih]
      constructor
      · rintro ⟨m, hm, t, ht, hu⟩
        exact ⟨t, ⟨m, hm, ht⟩, hu⟩
      · rintro ⟨t, ⟨m, hm, ht⟩, hu⟩
        exact ⟨m, hm, t, ht, hu⟩

theorem along_append {C : σ → α → Prop} {s t : σ} {as bs : List α}
    (h : run step s as = some t) :
    Along step C s (as ++ bs) ↔ Along step C s as ∧ Along step C t bs := by
  induction as generalizing s with
  | nil =>
      cases h
      simp [Along]
  | cons a as ih =>
      obtain ⟨m, hm, ht⟩ := run_cons.mp h
      simp only [List.cons_append, along_cons hm, ih ht, and_assoc]

theorem Along.and {C D : σ → α → Prop} {s : σ} {as : List α}
    (hC : Along step C s as) (hD : Along step D s as) :
    Along step (fun t a => C t a ∧ D t a) s as := by
  induction as generalizing s with
  | nil => trivial
  | cons a as ih =>
      refine ⟨⟨hC.1, hD.1⟩, ?_⟩
      have tailC := hC.2
      have tailD := hD.2
      cases hs : step s a with
      | none => trivial
      | some t =>
          rw [hs] at tailC tailD
          exact ih tailC tailD

/-- The induction principle for runs whose steps all meet a condition. -/
theorem invariant_along {I : σ → Prop} {C : σ → α → Prop}
    (preserved : ∀ s a t, I s → C s a → step s a = some t → I t)
    {s t : σ} {as : List α} (start : I s) (steps : Along step C s as)
    (h : run step s as = some t) : I t := by
  induction as generalizing s with
  | nil =>
      cases h
      exact start
  | cons a as ih =>
      obtain ⟨m, hm, ht⟩ := run_cons.mp h
      obtain ⟨hc, tail⟩ := (along_cons hm).mp steps
      exact ih (preserved s a m start hc hm) tail ht

/-- What no step can bring back and holds in the last state has held before. -/
theorem holds_before {F : σ → Prop} (stays : ∀ s a t, step s a = some t → F t → F s)
    {s t : σ} {as : List α} (h : run step s as = some t) (ends : F t) : F s := by
  induction as generalizing s with
  | nil =>
      cases h
      exact ends
  | cons a as ih =>
      obtain ⟨m, hm, ht⟩ := run_cons.mp h
      exact stays s a m hm (ih ht)

/-- The induction principle for runs whose last state has such a property. -/
theorem invariant_before {I F : σ → Prop} {C : σ → α → Prop}
    (stays : ∀ s a t, step s a = some t → F t → F s)
    (preserved : ∀ s a t, I s → C s a → F t → step s a = some t → I t)
    {s t : σ} {as : List α} (start : I s) (steps : Along step C s as)
    (h : run step s as = some t) (ends : F t) : I t := by
  induction as generalizing s with
  | nil =>
      cases h
      exact start
  | cons a as ih =>
      obtain ⟨m, hm, ht⟩ := run_cons.mp h
      obtain ⟨hc, tail⟩ := (along_cons hm).mp steps
      exact ih (preserved s a m start hc (holds_before stays ht ends) hm) tail ht

/-- Two conditions that agree on a step, as long as the steps before meet the first. -/
theorem along_iff_along {I F : σ → Prop} {C D E : σ → α → Prop}
    (stays : ∀ s a t, step s a = some t → F t → F s)
    (same : ∀ s a t, I s → E s a → F t → step s a = some t → (C s a ↔ D s a))
    (preserved : ∀ s a t, I s → E s a → C s a → F t → step s a = some t → I t)
    {s t : σ} {as : List α} (start : I s) (steps : Along step E s as)
    (h : run step s as = some t) (ends : F t) : Along step C s as ↔ Along step D s as := by
  induction as generalizing s with
  | nil => exact Iff.rfl
  | cons a as ih =>
      obtain ⟨m, hm, ht⟩ := run_cons.mp h
      obtain ⟨he, tail⟩ := (along_cons hm).mp steps
      have hafter := holds_before stays ht ends
      rw [along_cons hm, along_cons hm, ← same s a m start he hafter hm]
      exact and_congr_right fun hc => ih (preserved s a m start he hc hafter hm) tail ht

theorem along_of_forall {C : σ → α → Prop} {as : List α} (s : σ)
    (h : ∀ a ∈ as, ∀ t, C t a) : Along step C s as := by
  induction as generalizing s with
  | nil => trivial
  | cons a as ih =>
      refine ⟨h a List.mem_cons_self s, ?_⟩
      cases step s a with
      | none => trivial
      | some t => exact ih t fun b hb => h b (List.mem_cons_of_mem a hb)

theorem along_true (s : σ) (as : List α) : Along step (fun _ _ => True) s as :=
  along_of_forall s fun _ _ _ => trivial

/-- The induction principle for all runs. -/
theorem invariant_run {I : σ → Prop}
    (preserved : ∀ s a t, I s → step s a = some t → I t)
    {s t : σ} {as : List α} (start : I s) (h : run step s as = some t) : I t :=
  invariant_along (fun s a t hs _ => preserved s a t hs) start (along_true s as) h

theorem exists_run_of_step {P : σ → Prop} {s : σ} (a : α) (h : ∃ t, step s a = some t ∧ P t) :
    ∃ as t, run step s as = some t ∧ P t := by
  obtain ⟨t, ht, hp⟩ := h
  exact ⟨[a], t, run_cons.mpr ⟨t, ht, rfl⟩, hp⟩

/-- What runs of another program can keep up with step by step, it can keep up with in
every run. -/
theorem run_simulated {τ β : Type*} {step' : τ → β → Option τ} {R : σ → τ → Prop}
    (simulates : ∀ s a t u, R s u → step s a = some t →
      ∃ bs v, run step' u bs = some v ∧ R t v)
    {s t : σ} {u : τ} {as : List α} (start : R s u) (h : run step s as = some t) :
    ∃ bs v, run step' u bs = some v ∧ R t v := by
  induction as generalizing s u with
  | nil =>
      cases h
      exact ⟨[], u, rfl, start⟩
  | cons a as ih =>
      obtain ⟨m, hm, ht⟩ := run_cons.mp h
      obtain ⟨bs, v, hv, hmid⟩ := simulates s a m u start hm
      obtain ⟨cs, w, hw, hend⟩ := ih hmid ht
      exact ⟨bs ++ cs, w, run_append.mpr ⟨v, hv, hw⟩, hend⟩

/-- Runs are bounded when every step from an invariant state decreases a measure. -/
theorem run_length_le {I : σ → Prop} {μ : σ → Nat}
    (preserved : ∀ s a t, I s → step s a = some t → I t)
    (decreases : ∀ s a t, I s → step s a = some t → μ t < μ s)
    {s t : σ} {as : List α} (start : I s) (h : run step s as = some t) :
    as.length + μ t ≤ μ s := by
  induction as generalizing s with
  | nil =>
      cases h
      simp
  | cons a as ih =>
      obtain ⟨m, hm, ht⟩ := run_cons.mp h
      have hrest := ih (preserved s a m start hm) ht
      have hless := decreases s a m start hm
      rw [List.length_cons]
      omega

/-- What the steps of a run weigh, added up. -/
def tally (step : σ → α → Option σ) (weight : σ → α → Nat) : σ → List α → Nat
  | _, [] => 0
  | s, a :: as =>
      match step s a with
      | none => 0
      | some t => weight s a + tally step weight t as

theorem tally_cons {weight : σ → α → Nat} {s t : σ} {a : α} {as : List α}
    (h : step s a = some t) :
    tally step weight s (a :: as) = weight s a + tally step weight t as := by
  rw [tally, h]

/-- The induction principle for what holds of a state and the weight of the run to it. -/
theorem invariant_tally {weight : σ → α → Nat} {I : σ → Nat → Prop}
    (preserved : ∀ s a t n, I s n → step s a = some t → I t (n + weight s a))
    {s t : σ} {n : Nat} {as : List α} (start : I s n) (h : run step s as = some t) :
    I t (n + tally step weight s as) := by
  induction as generalizing s n with
  | nil =>
      cases h
      exact start
  | cons a as ih =>
      obtain ⟨m, hm, ht⟩ := run_cons.mp h
      rw [tally_cons hm, ← Nat.add_assoc]
      exact ih (preserved s a m n start hm) ht

def emitted {β : Type*} (step : σ → α → Option σ) (out : σ → α → List β) : σ → List α → List β
  | _, [] => []
  | s, a :: as =>
      match step s a with
      | none => []
      | some t => out s a ++ emitted step out t as

/-- The induction principle for what holds of a state and what the run to it has given out. -/
theorem invariant_emitted {β : Type*} {out : σ → α → List β} {I : σ → List β → Prop}
    (preserved : ∀ s a t bs, I s bs → step s a = some t → I t (bs ++ out s a))
    {s t : σ} {bs : List β} {as : List α} (start : I s bs) (h : run step s as = some t) :
    I t (bs ++ emitted step out s as) := by
  induction as generalizing s bs with
  | nil =>
      cases h
      simpa [emitted] using start
  | cons a as ih =>
      obtain ⟨m, hm, ht⟩ := run_cons.mp h
      rw [emitted, hm, ← List.append_assoc]
      exact ih (preserved s a m bs start hm) ht

/-- A run weighs no more than it starts with when every step pays for its weight. -/
theorem tally_le {weight : σ → α → Nat} {I : σ → Prop} {C : σ → α → Prop} {μ : σ → Nat}
    (preserved : ∀ s a t, I s → C s a → step s a = some t → I t)
    (pays : ∀ s a t, I s → C s a → step s a = some t → weight s a + μ t ≤ μ s)
    {s t : σ} {as : List α} (start : I s) (steps : Along step C s as)
    (h : run step s as = some t) : tally step weight s as + μ t ≤ μ s := by
  induction as generalizing s with
  | nil =>
      cases h
      simp [tally]
  | cons a as ih =>
      obtain ⟨m, hm, ht⟩ := run_cons.mp h
      obtain ⟨hc, tail⟩ := (along_cons hm).mp steps
      have hrest := ih (preserved s a m start hc hm) tail ht
      have hpays := pays s a m start hc hm
      rw [tally_cons hm]
      omega

/-- Where a step that weighs something is always possible, runs weigh as much as one likes. -/
theorem exists_tally {weight : σ → α → Nat} {I : σ → Prop}
    (preserved : ∀ s a t, I s → step s a = some t → I t)
    (heavy : ∀ s, I s → ∃ a t, step s a = some t ∧ 1 ≤ weight s a)
    {s : σ} (start : I s) (n : Nat) :
    ∃ as t, run step s as = some t ∧ n ≤ tally step weight s as := by
  induction n generalizing s with
  | zero => exact ⟨[], s, rfl, Nat.zero_le _⟩
  | succ n ih =>
      obtain ⟨a, m, hm, hweight⟩ := heavy s start
      obtain ⟨as, t, ht, hn⟩ := ih (preserved s a m start hm)
      refine ⟨a :: as, t, run_cons.mpr ⟨m, hm, ht⟩, ?_⟩
      rw [tally_cons hm]
      omega

/-- A run that starts well ends well exactly when all its steps meet `C`, if a
step that does not spoils it for good. -/
theorem good_iff_along {Good Bad : σ → Prop} {C : σ → α → Prop}
    (keeps : ∀ s a t, Good s → C s a → step s a = some t → Good t)
    (spoils : ∀ s a t, Good s → ¬ C s a → step s a = some t → Bad t)
    (stays : ∀ s a t, Bad s → step s a = some t → Bad t)
    {s t : σ} {as : List α} (start : Good s) (h : run step s as = some t) :
    (Along step C s as ∧ Good t) ∨ (¬ Along step C s as ∧ Bad t) := by
  induction as generalizing s with
  | nil =>
      cases h
      exact .inl ⟨trivial, start⟩
  | cons a as ih =>
      obtain ⟨m, hm, ht⟩ := run_cons.mp h
      rw [along_cons hm]
      by_cases hc : C s a
      · simpa only [hc, true_and] using ih (keeps s a m start hc hm) ht
      · refine .inr ⟨fun hsteps => hc hsteps.1, ?_⟩
        exact invariant_run stays (spoils s a m start hc hm) ht

/-- A run that does not always meet `C` has a step that does not. -/
theorem exists_not_along {C : σ → α → Prop} {s u : σ} {as : List α}
    (h : run step s as = some u) (hnot : ¬ Along step C s as) :
    ∃ bs a cs m t, as = bs ++ a :: cs ∧ run step s bs = some m ∧ ¬ C m a ∧
      step m a = some t := by
  induction as generalizing s with
  | nil => exact absurd trivial hnot
  | cons a as ih =>
      obtain ⟨m, hm, hu⟩ := run_cons.mp h
      rw [along_cons hm] at hnot
      by_cases hc : C s a
      · obtain ⟨bs, b, cs, n, t, rfl, hn, hcn, ht⟩ := ih hu fun htail => hnot ⟨hc, htail⟩
        exact ⟨a :: bs, b, cs, n, t, rfl, run_cons.mpr ⟨m, hm, hn⟩, hcn, ht⟩
      · exact ⟨[], a, as, s, m, rfl, rfl, hc, hm⟩

theorem always_cons {P : σ → Prop} {s t : σ} {a : α} {as : List α} (h : step s a = some t) :
    Always step P s (a :: as) ↔ P s ∧ Always step P t as := by
  constructor
  · intro hall
    refine ⟨hall [] (a :: as) s rfl rfl, fun bs cs u has hu => ?_⟩
    exact hall (a :: bs) cs u (by rw [has, List.cons_append]) (run_cons.mpr ⟨t, h, hu⟩)
  · intro hall bs cs u has hu
    cases bs with
    | nil =>
        cases hu
        exact hall.1
    | cons b bs =>
        obtain ⟨rfl, rfl⟩ := List.cons.inj has
        obtain ⟨m, hm, hu⟩ := run_cons.mp hu
        cases h.symm.trans hm
        exact hall.2 bs cs u rfl hu

/-- A run passes through good states only exactly when all its steps meet `C`, if a step
that does not leads at once to a state that is not good. -/
theorem along_iff_always {I P : σ → Prop} {C : σ → α → Prop}
    (good : ∀ s, I s → P s)
    (keeps : ∀ s a t, I s → C s a → step s a = some t → I t)
    (spoils : ∀ s a t, I s → ¬ C s a → step s a = some t → ¬ P t)
    {s t : σ} {as : List α} (start : I s) (h : run step s as = some t) :
    Along step C s as ↔ Always step P s as := by
  induction as generalizing s with
  | nil =>
      refine ⟨fun _ bs cs u has hu => ?_, fun _ => trivial⟩
      obtain ⟨rfl, rfl⟩ := List.append_eq_nil_iff.mp has.symm
      cases hu
      exact good s start
  | cons a as ih =>
      obtain ⟨m, hm, ht⟩ := run_cons.mp h
      rw [along_cons hm, always_cons hm]
      by_cases hc : C s a
      · rw [ih (keeps s a m start hc hm) ht]
        exact ⟨fun hall => ⟨good s start, hall.2⟩, fun hall => ⟨hc, hall.2⟩⟩
      · refine ⟨fun hall => absurd hall.1 hc, fun hall => ?_⟩
        exact absurd (hall.2 [] as m rfl rfl) (spoils s a m start hc hm)

/-- Every run comes to an end in which `Done` holds, whatever the order of the events: the
length of the runs is bounded, and a run that cannot go on is done. -/
def RunsTo (step : σ → α → Option σ) (Done : σ → Prop) (s : σ) : Prop :=
  ∃ bound, ∀ as t, run step s as = some t →
    as.length ≤ bound ∧ (Done t ∨ ∃ a u, step t a = some u)

theorem runsTo_of_measure {I Done : σ → Prop} {μ : σ → Nat}
    (preserved : ∀ s a t, I s → step s a = some t → I t)
    (decreases : ∀ s a t, I s → step s a = some t → μ t < μ s)
    (progress : ∀ s, I s → Done s ∨ ∃ a t, step s a = some t)
    {s : σ} (start : I s) : RunsTo step Done s := by
  refine ⟨μ s, fun as t h => ⟨?_, progress t (invariant_run preserved start h)⟩⟩
  have hlen := run_length_le preserved decreases start h
  omega

/-- One run that is stuck elsewhere is enough. -/
theorem not_runsTo {Done : σ → Prop} {s t : σ} {as : List α} (h : run step s as = some t)
    (hnot : ¬ Done t) (hstuck : ∀ a, step t a = none) : ¬ RunsTo step Done s := by
  rintro ⟨bound, hall⟩
  cases (hall as t h).2 with
  | inl hdone => exact hnot hdone
  | inr hmoves =>
      obtain ⟨a, u, hstep⟩ := hmoves
      rw [hstuck a] at hstep
      cases hstep

end Execution
