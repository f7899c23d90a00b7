import LinuxTraining.Speedtest.Phases

/-!
What the counters count. A worker that moved bytes carries them until it has
updated its counter, under the lock. The counters fall behind the bytes moved
by what a step leaves uncounted, and they never catch up.
-/
namespace LinuxTraining.Speedtest
open Execution Threads

def Worker.Holds (w : Worker) : Prop :=
  match w.pc with
  | .load _ _ | .store _ _ _ | .unlock _ => True
  | _ => False

def Worker.Updating (w : Worker) : Prop :=
  match w.pc with
  | .lock _ _ | .load _ _ | .store _ _ _ => True
  | _ => False

instance (w : Worker) : Decidable w.Updating := by
  unfold Worker.Updating
  split <;> infer_instance

def Pc.size : Pc → Nat
  | .lock size _ | .load size _ | .store size _ _ => size
  | _ => 0

def Worker.carried (w : Worker) (phase : Phase) : Nat :=
  if w.phase = phase then w.pc.size else 0

@[simp] theorem Pc.size_lock (size : Nat) (after : After) : (Pc.lock size after).size = size := rfl

@[simp] theorem Pc.size_load (size : Nat) (after : After) : (Pc.load size after).size = size := rfl

@[simp] theorem Pc.size_store (size total : Nat) (after : After) :
    (Pc.store size total after).size = size := rfl

@[simp] theorem Pc.size_unlock (after : After) : (Pc.unlock after).size = 0 := rfl

@[simp] theorem Pc.size_clearRunning : Pc.clearRunning.size = 0 := rfl

@[simp] theorem Pc.size_done : Pc.done.size = 0 := rfl

def carried (workers : List Worker) (phase : Phase) : Nat :=
  (workers.map fun w => w.carried phase).sum

/-- The answer of the call leaves no byte uncounted: data comes after a ready `select`,
and a send is not cut short. -/
def Worker.Counted (w : Worker) (answer : Int) : Prop :=
  match w.phase, w.pc with
  | .download, .recv ready => 0 < answer → ready = true
  | .upload, .send => 0 < answer → answer = w.request.length
  | .upload, .sendBlock j => j < ulBufferTimes → 0 < answer → answer = ulBufferSize
  | _, _ => True

def EveryByteCounted (s : State) : Event → Prop
  | .main _ => True
  | .worker k answer => ∀ w, s.workers[k]? = some w → w.Counted answer

variable {cfg : Config} {s t : State} {sh sh' : Shared} {k : Nat} {w w' : Worker}
  {answer : Int} {p : Phase}

theorem uncounted_eq_zero : w.uncounted answer = 0 ↔ w.Counted answer := by
  unfold Worker.uncounted Worker.Counted
  cases hphase : w.phase with
  | download =>
      cases hpc : w.pc with
      | recv ready => cases ready <;> simp
      | _ => simp
  | upload =>
      cases hpc : w.pc with
      | send => by_cases hfull : answer = w.request.length <;> simp [hfull]
      | sendBlock j =>
          by_cases hj : j < ulBufferTimes
          · by_cases hfull : answer = ulBufferSize <;> simp [hj, hfull]
          · simp [hj]
      | _ => simp

theorem size_talks {pc : Pc} (h : pc.Talks) : pc.size = 0 := by
  cases pc <;> first | rfl | cases h

theorem size_quiet {pc : Pc} (h : pc.Quiet) : pc.size = 0 := by
  cases pc <;> first | rfl | cases h

theorem size_opens {pc : Pc} (h : pc.Opens) : pc.size = 0 := by
  cases pc <;> first | rfl | cases h

theorem uncounted_update (answer : Int) (h : ¬ w.pc.Talks) : w.uncounted answer = 0 := by
  unfold Worker.uncounted
  split <;> simp_all [Pc.Talks]

/-- The lock is held by the worker in the middle of its update, which has read the
counter as it is. -/
structure Locked (s : State) : Prop where
  holder : ∀ k, s.shared.mutex = some k ↔ ∃ w, s.workers[k]? = some w ∧ w.Holds
  current : ∀ w ∈ s.workers, ∀ size total after, w.pc = .store size total after →
    total = s.shared.total_size w.phase

/-- One step of a worker moves bytes from the environment to the worker or from the
worker to the counter, and leaves the rest uncounted. -/
theorem Moved.balance (h : Moved sh k w answer w' sh')
    (current : ∀ size total after, w.pc = .store size total after →
      total = sh.total_size w.phase) (p : Phase) :
    sh'.total_size p + w'.carried p + sh.transferred p +
        (if w.phase = p then w.uncounted answer else 0) =
      sh.total_size p + w.carried p + sh'.transferred p := by
  by_cases hp : w.phase = p
  · subst hp
    cases h with
    | opens at_ =>
        obtain ⟨hphase, _, hquiet⟩ := openConnection_frame sh answer at_
        have hun : w.uncounted answer = 0 := uncounted_update answer fun h => by
          revert at_ h
          cases w.pc <;> simp [Pc.Opens, Pc.Talks]
        simp [Worker.carried, hphase, size_quiet hquiet, size_opens at_, hun]
    | talks pc at_ quiet all =>
        simp [Worker.carried, Worker.goto, size_talks at_, size_quiet quiet, all]
    | counts after at_ all =>
        simp [Worker.carried, Worker.goto, Shared.transfer, size_talks at_, all]
        omega
    | drops pc at_ quiet lost =>
        simp [Worker.carried, Worker.goto, Shared.transfer, size_talks at_, size_quiet quiet, lost]
        omega
    | locks size after at_ | loads size after at_ =>
        have hun : w.uncounted answer = 0 := uncounted_update answer (by simp [at_, Pc.Talks])
        simp [Worker.carried, Worker.goto, at_, hun]
    | stores size total after at_ =>
        have hun : w.uncounted answer = 0 := uncounted_update answer (by simp [at_, Pc.Talks])
        simp [Worker.carried, Worker.goto, at_, hun, current size total after at_]
    | unlocks after pc at_ quiet =>
        have hun : w.uncounted answer = 0 := uncounted_update answer (by simp [at_, Pc.Talks])
        simp [Worker.carried, Worker.goto, at_, size_quiet quiet, hun]
    | ends at_ =>
        have hun : w.uncounted answer = 0 := uncounted_update answer (by simp [at_, Pc.Talks])
        simp [Worker.carried, Worker.goto, Shared.setSlot, at_, hun]
  · cases h with
    | opens at_ =>
        obtain ⟨hphase, _, _⟩ := openConnection_frame sh answer at_
        simp [Worker.carried, hphase, hp]
    | counts after at_ | drops pc at_ | stores size total after at_ =>
        simp [Worker.carried, Worker.goto, Shared.transfer, hp, Ne.symm hp]
    | _ => simp [Worker.carried, Worker.goto, Shared.setSlot, hp]

theorem holds_quiet (h : w.pc.Quiet) : ¬ w.Holds := by
  unfold Worker.Holds
  revert h
  cases w.pc <;> simp [Pc.Quiet]

theorem holds_talks (h : w.pc.Talks) : ¬ w.Holds := by
  unfold Worker.Holds
  revert h
  cases w.pc <;> simp [Pc.Talks]

theorem holds_opens (h : w.pc.Opens) : ¬ w.Holds := by
  unfold Worker.Holds
  revert h
  cases w.pc <;> simp [Pc.Opens]

theorem Moved.lock (h : Moved sh k w answer w' sh') :
    (sh'.mutex = sh.mutex ∧ (w'.Holds ↔ w.Holds)) ∨
      (sh.mutex = none ∧ sh'.mutex = some k ∧ w'.Holds) ∨
      (w.Holds ∧ sh'.mutex = none ∧ ¬ w'.Holds) := by
  cases h with
  | opens at_ =>
      have hafter := (openConnection_frame sh answer at_).2.2
      exact .inl ⟨rfl, iff_of_false (holds_quiet hafter) (holds_opens at_)⟩
  | talks pc at_ quiet all | drops pc at_ quiet lost =>
      exact .inl ⟨rfl, iff_of_false (holds_quiet quiet) (holds_talks at_)⟩
  | counts after at_ all => exact .inl ⟨rfl, iff_of_false id (holds_talks at_)⟩
  | locks size after at_ free => exact .inr (.inl ⟨free, rfl, trivial⟩)
  | loads size after at_ | stores size total after at_ =>
      exact .inl ⟨rfl, iff_of_true trivial (by simp [Worker.Holds, at_])⟩
  | unlocks after pc at_ quiet =>
      exact .inr (.inr ⟨by simp [Worker.Holds, at_], rfl, holds_quiet quiet⟩)
  | ends at_ => exact .inl ⟨rfl, iff_of_false id (by simp [Worker.Holds, at_])⟩

/-- Only the holder of the lock changes a counter. -/
theorem Moved.counter (h : Moved sh k w answer w' sh') :
    sh'.total_size = sh.total_size ∨ w.Holds := by
  cases h with
  | stores size total after at_ => exact .inr (by simp [Worker.Holds, at_])
  | _ => exact .inl rfl

/-- A worker about to write has just read the counter. -/
theorem Moved.fresh (h : Moved sh k w answer w' sh') {size total : Nat} {after : After}
    (hpc : w'.pc = .store size total after) : total = sh'.total_size w'.phase := by
  have hquiet : ∀ pc : Pc, pc.Quiet → pc ≠ .store size total after := by
    rintro _ hpc rfl
    exact hpc
  cases h with
  | loads size after at_ =>
      cases hpc
      rfl
  | opens at_ => exact absurd hpc (hquiet _ (openConnection_frame _ _ at_).2.2)
  | talks pc at_ quiet all => exact absurd hpc (hquiet _ quiet)
  | drops pc at_ quiet lost => exact absurd hpc (hquiet _ quiet)
  | unlocks after pc at_ quiet => exact absurd hpc (hquiet _ quiet)
  | _ => cases hpc

theorem Locked.holds_iff (locked : Locked s) (hw : s.workers[k]? = some w) :
    s.shared.mutex = some k ↔ w.Holds := by
  rw [locked.holder, hw]
  simp

theorem Locked.worker (locked : Locked s) (hw : s.workers[k]? = some w)
    (h : Moved s.shared k w answer w' sh') :
    Locked { s with workers := s.workers.set k w', shared := sh' } where
  holder := by
    intro j
    simp only [getElem?_set_iff hw]
    have hself := locked.holds_iff hw
    by_cases hj : j = k
    · subst hj
      have hright : (∃ v, ((j = j ∧ v = w') ∨ (j ≠ j ∧ s.workers[j]? = some v)) ∧ v.Holds) ↔
          w'.Holds := by simp
      rw [hright]
      rcases h.lock with ⟨hmutex, hholds⟩ | ⟨_, hmutex, hholds⟩ | ⟨_, hmutex, hholds⟩
      · rw [hmutex, hself, hholds]
      · simp [hmutex, hholds]
      · simp [hmutex, hholds]
    · have hright : (∃ v, ((j = k ∧ v = w') ∨ (j ≠ k ∧ s.workers[j]? = some v)) ∧ v.Holds) ↔
          s.shared.mutex = some j := by simp [hj, locked.holder]
      rw [hright]
      rcases h.lock with ⟨hmutex, _⟩ | ⟨hfree, hmutex, _⟩ | ⟨hholds, hmutex, _⟩
      · rw [hmutex]
      · simp [hmutex, hfree, Ne.symm hj]
      · simp [hmutex, hself.mpr hholds, Ne.symm hj]
  current := by
    intro v hv size total after hpc
    obtain ⟨j, hj⟩ := List.mem_iff_getElem?.mp hv
    cases (getElem?_set_iff hw).mp hj with
    | inl hown =>
        obtain ⟨_, rfl⟩ := hown
        exact h.fresh hpc
    | inr hother =>
        obtain ⟨hne, hj⟩ := hother
        have hbefore := locked.current v (List.mem_of_getElem? hj) size total after hpc
        cases h.counter with
        | inl htotal =>
            rw [htotal, hbefore]
        | inr hholds =>
            have hother : v.Holds := by simp [Worker.Holds, hpc]
            have hv := (locked.holds_iff hj).mpr hother
            rw [(locked.holds_iff hw).mpr hholds] at hv
            exact absurd (Option.some.inj hv).symm hne

theorem Locked.main (locked : Locked s) (hmutex : t.shared.mutex = s.shared.mutex)
    (htotal : t.shared.total_size = s.shared.total_size)
    (hworkers : t.workers = s.workers ∨
      ∃ phase i, t.workers = s.workers ++ [.created phase i]) : Locked t := by
  cases hworkers with
  | inl hsame =>
      refine ⟨?_, ?_⟩
      · rw [hmutex, hsame]
        exact locked.holder
      · rw [htotal, hsame]
        exact locked.current
  | inr hmoves =>
      obtain ⟨phase, i, hadded⟩ := hmoves
      refine ⟨?_, ?_⟩
      · intro j
        rw [hmutex, locked.holder, hadded]
        constructor
        · rintro ⟨v, hv, hholds⟩
          refine ⟨v, ?_, hholds⟩
          rw [List.getElem?_append_left (List.getElem?_eq_some_iff.mp hv).1, hv]
        · rintro ⟨v, hv, hholds⟩
          refine ⟨v, ?_, hholds⟩
          cases List.mem_append.mp (List.mem_of_getElem? hv) with
          | inl _ =>
              cases Nat.lt_or_ge j s.workers.length with
              | inl hj =>
                  rwa [List.getElem?_append_left hj] at hv
              | inr hj =>
                  rw [List.getElem?_append_right hj] at hv
                  rw [List.mem_singleton.mp (List.mem_of_getElem? hv)] at hholds
                  exact hholds.elim
          | inr hnew =>
              rw [List.mem_singleton.mp hnew] at hholds
              exact hholds.elim
      · rw [htotal, hadded]
        exact forall_created locked.current fun size total after hpc => by cases hpc

def dropped (s : State) (p : Phase) : Event → Nat
  | .main _ => 0
  | .worker k answer =>
      match s.workers[k]? with
      | none => 0
      | some w => if w.phase = p then w.uncounted answer else 0

theorem Locked.step {e : Event} (locked : Locked s) (h : step cfg s e = some t) :
    Locked t ∧ ∀ p,
      t.shared.total_size p + carried t.workers p + s.shared.transferred p + dropped s p e =
        s.shared.total_size p + carried s.workers p + t.shared.transferred p := by
  cases e with
  | main elapsed =>
      obtain ⟨hmutex, htotal, htransferred, hworkers⟩ := (mainStep_moved h).frame
      have hcarried : ∀ p, carried t.workers p = carried s.workers p := by
        intro p
        cases hworkers with
        | inl hsame =>
            rw [hsame]
        | inr hmoves =>
            obtain ⟨phase, i, _, hadded⟩ := hmoves
            simp [carried, hadded, Worker.carried, Worker.created, Pc.size]
      refine ⟨locked.main hmutex htotal (hworkers.imp_right fun ⟨phase, i, _, h⟩ =>
        ⟨phase, i, h⟩), fun p => ?_⟩
      rw [hcarried, htotal, htransferred, dropped, Nat.add_zero]
  | worker k answer =>
      obtain ⟨w, w', sh', hw, hstep, rfl⟩ := step_worker h
      have hmoved := workerStep_moved hstep
      refine ⟨locked.worker hw hmoved, fun p => ?_⟩
      have hbalance := hmoved.balance (locked.current w (List.mem_of_getElem? hw)) p
      have hsum := sum_moved (fun w => w.carried p) hw w'
      simp only [dropped, hw, carried]
      omega

theorem everyByteCounted_iff {e : Event} :
    EveryByteCounted s e ↔ ∀ p, dropped s p e = 0 := by
  cases e with
  | main elapsed => simp [EveryByteCounted, dropped]
  | worker k answer =>
      cases hw : s.workers[k]? with
      | none => simp [EveryByteCounted, dropped, hw]
      | some w =>
          simp only [EveryByteCounted, dropped, hw, Option.some.injEq, forall_eq',
            ← uncounted_eq_zero]
          constructor
          · intro h p
            simp [h]
          · intro h
            simpa using h w.phase

theorem Locked.start : Locked start where
  holder := by simp [Speedtest.start]
  current := by simp [Speedtest.start]

/-- The counters and the updates under way account for every byte moved. -/
def Accounted (s : State) : Prop :=
  Locked s ∧ ∀ p, s.shared.total_size p + carried s.workers p = s.shared.transferred p

def Short (s : State) : Prop :=
  Locked s ∧ (∀ p, s.shared.total_size p + carried s.workers p ≤ s.shared.transferred p) ∧
    ∃ p, s.shared.total_size p + carried s.workers p < s.shared.transferred p

theorem run_accounted_or_short {as : List Event} (h : run (step cfg) start as = some s) :
    (Along (step cfg) EveryByteCounted start as ∧ Accounted s) ∨
      (¬ Along (step cfg) EveryByteCounted start as ∧ Short s) := by
  refine good_iff_along ?_ ?_ ?_ ⟨Locked.start, fun p => rfl⟩ h
  · intro s e t ⟨locked, hequal⟩ counted hstep
    obtain ⟨hlocked, hbalance⟩ := locked.step hstep
    refine ⟨hlocked, fun p => ?_⟩
    have := hbalance p
    have := hequal p
    have := everyByteCounted_iff.mp counted p
    omega
  · intro s e t ⟨locked, hequal⟩ counted hstep
    obtain ⟨hlocked, hbalance⟩ := locked.step hstep
    rw [everyByteCounted_iff, not_forall] at counted
    obtain ⟨q, hq⟩ := counted
    refine ⟨hlocked, fun p => ?_, q, ?_⟩
    · have := hbalance p
      have := hequal p
      omega
    · have := hbalance q
      have := hequal q
      omega
  · intro s e t ⟨locked, hle, q, hq⟩ hstep
    obtain ⟨hlocked, hbalance⟩ := locked.step hstep
    refine ⟨hlocked, fun p => ?_, q, ?_⟩
    · have := hbalance p
      have := hle p
      omega
    · have := hbalance q
      omega

theorem carried_eq_zero (quiet : ∀ w ∈ s.workers, ¬ w.Updating) (p : Phase) :
    carried s.workers p = 0 := by
  refine List.sum_eq_zero_iff_forall_eq_nat.mpr ?_
  intro n hn
  obtain ⟨w, hw, rfl⟩ := List.mem_map.mp hn
  have hnot := quiet w hw
  unfold Worker.carried
  unfold Worker.Updating at hnot
  split
  · cases hpc : w.pc <;> simp [hpc] at hnot <;> rfl
  · rfl

/-- When no worker is in the middle of an update, the counters hold the bytes that were
received and sent exactly in the runs that dropped none. -/
theorem totals_count_iff (cfg : Config) (as : List Event) (s : State)
    (h : run (step cfg) start as = some s) (quiet : ∀ w ∈ s.workers, ¬ w.Updating) :
    (∀ p, s.shared.total_size p = s.shared.transferred p) ↔
      Along (step cfg) EveryByteCounted start as := by
  have hzero := carried_eq_zero quiet
  cases run_accounted_or_short h with
  | inl hcounts =>
      obtain ⟨hcounted, _, hequal⟩ := hcounts
      refine iff_of_true (fun p => ?_) hcounted
      have := hequal p
      have := hzero p
      omega
  | inr hshort =>
      obtain ⟨hcounted, _, _, q, hq⟩ := hshort
      refine iff_of_false (fun hall => ?_) hcounted
      have := hall q
      have := hzero q
      omega

def firstRequest (status : Int) : List Event :=
  List.replicate 8 (.main false) ++
    [.worker 0 0, .worker 0 3, .worker 0 0, .worker 0 0, .worker 0 0, .worker 0 99,
      .worker 0 status]

instance (s : State) (e : Event) : Decidable (EveryByteCounted s e) := by
  cases e with
  | main elapsed => exact isTrue trivial
  | worker k answer =>
      exact decidable_of_iff (∀ w ∈ s.workers[k]?, w.uncounted answer = 0) (by
        simp [EveryByteCounted, uncounted_eq_zero])

/-- Five bytes received after a ready `select`, and counted. -/
theorem totals_count_ready_read :
    ∃ s, run (step oneThread) start (firstRequest 1 ++
        [.worker 0 5, .worker 0 0, .worker 0 0, .worker 0 0, .worker 0 0]) = some s ∧
      ∀ p, s.shared.total_size p = s.shared.transferred p := by
  have hquiet : (run (step oneThread) start (firstRequest 1 ++
      [.worker 0 5, .worker 0 0, .worker 0 0, .worker 0 0, .worker 0 0])).map
        (fun s => decide (∀ w ∈ s.workers, ¬ w.Updating)) = some true := by decide +kernel
  obtain ⟨s, hs, hquiet⟩ := Option.map_eq_some_iff.mp hquiet
  refine ⟨s, hs, (totals_count_iff oneThread _ s hs (of_decide_eq_true hquiet)).mpr ?_⟩
  decide +kernel

/-- The same bytes received after a timeout. -/
theorem timed_out_read_not_counted :
    ∃ s, run (step oneThread) start (firstRequest 0 ++ [.worker 0 5]) = some s ∧
      (∀ w ∈ s.workers, ¬ w.Updating) ∧
      s.shared.total_size .download = 0 ∧ s.shared.transferred .download = 5 := by
  have hends : (run (step oneThread) start (firstRequest 0 ++ [.worker 0 5])).map
        (fun s => (decide (∀ w ∈ s.workers, ¬ w.Updating), s.shared.total_size .download,
          s.shared.transferred .download)) = some (true, 0, 5) := by decide +kernel
  obtain ⟨s, hs, hends⟩ := Option.map_eq_some_iff.mp hends
  simp only [Prod.mk.injEq] at hends
  exact ⟨s, hs, of_decide_eq_true hends.1, hends.2.1, hends.2.2⟩

end LinuxTraining.Speedtest
