import LinuxTraining.Semaphores.WritingFile

/-!
The threads of `semaphore_sync.c` come to an end. A semaphore and the threads between its
`sem_wait` and its `sem_post` make one, so a thread that has to wait waits for one that can move;
and every step brings a thread nearer to the end of its loop.
-/
namespace LinuxTraining.WritingFile
open Execution Semaphore

/-- Between `sem_wait` and `sem_post` on the semaphore that goes with the file. -/
def Pc.holds (file : File) : Pc → Bool
  | .load f | .store f _ | .fprintf f | .printf f _ | .sleep f _ | .semPost f _ => f = file
  | _ => false

def Pc.inLoop : Pc → Bool
  | .fopen | .done => false
  | _ => true

def Pc.stores : Pc → Nat
  | .fprintf _ | .printf _ _ | .sleep _ _ | .semPost _ _ | .fclose _ _ => 1
  | _ => 0

def Pc.left : Pc → Nat
  | .fopen => 9
  | .semWait _ => 8
  | .load _ => 7
  | .store _ _ => 6
  | .fprintf _ => 5
  | .printf _ _ => 4
  | .sleep _ _ => 3
  | .semPost _ _ => 2
  | .fclose _ _ => 1
  | .done => 0

def State.place {n : Nat} (s : State n) (t : Fin n) : Pc × Nat := (s.pc t, s.i t)

def State.stores {n : Nat} (s : State n) : Nat := ∑ t, ((s.place t).2 + (s.place t).1.stores)

def State.left {n : Nat} (maxValue : Nat) (s : State n) : Nat :=
  ∑ t, ((maxValue - (s.place t).2) * 9 + (s.place t).1.left)

structure Turned {n : Nat} (maxValue : Nat) (s : State n) (t : Fin n) (pc : Pc) (i : Nat)
    (u : State n) : Prop where
  place : u.place = Function.update s.place t (pc, i)
  sem : ∀ file, u.sem file + (pc.holds file).toNat = s.sem file + ((s.pc t).holds file).toNat
  nearer : (maxValue - i) * 9 + pc.left < (maxValue - s.i t) * 9 + (s.pc t).left
  iterations : i ≤ maxValue
  inLoop : pc.inLoop = true → i < maxValue
  counter : (u.g_common_var = s.g_common_var ∧ i + pc.stores = s.i t + (s.pc t).stores) ∨
    ∃ file loaded, s.pc t = .store file loaded ∧ u.g_common_var = loaded + 1 ∧
      i + pc.stores = s.i t + (s.pc t).stores + 1
  loads : ∀ file loaded, pc = .store file loaded → loaded = s.g_common_var

/-- No semaphore is taken twice, threads in the loop have an iteration to finish, and the counter
and what was loaded from it are no more than the increments stored. -/
structure Orderly {n : Nat} (maxValue : Nat) (s : State n) : Prop where
  sem : ∀ file, s.sem file + occupants (Pc.holds file) s.pc = 1
  inLoop : ∀ t, (s.pc t).inLoop = true → s.i t < maxValue
  iterations : ∀ t, s.i t ≤ maxValue
  counter : s.g_common_var ≤ s.stores
  loaded : ∀ t file loaded, s.pc t = .store file loaded → loaded ≤ s.stores

variable {n maxValue : Nat} {s u : State n} {t : Fin n} {pc : Pc} {i : Nat}

theorem place_goto (s : State n) (t : Fin n) (pc : Pc) :
    (s.goto t pc).place = Function.update s.place t (pc, s.i t) := by
  funext v
  by_cases hv : v = t
  · simp [State.place, State.goto, hv]
  · simp [State.place, State.goto, hv]

theorem place_closes (s : State n) (t : Fin n) (lines : File → List Line) :
    State.place { s.goto t .fopen with
      lines := lines, i := Function.update s.i t (s.i t + 1) } =
      Function.update s.place t (.fopen, s.i t + 1) := by
  funext v
  by_cases hv : v = t
  · simp [State.place, State.goto, hv]
  · simp [State.place, State.goto, hv]

theorem Turned.inside (hle : s.i t ≤ maxValue) (hnearer : pc.left < (s.pc t).left)
    (hloop : pc.inLoop = true → s.i t < maxValue)
    (hholds : ∀ file, pc.holds file = (s.pc t).holds file) (hstores : pc.stores = (s.pc t).stores)
    (hloads : ∀ file loaded, pc = .store file loaded → loaded = s.g_common_var) :
    Turned maxValue s t pc (s.i t) (s.goto t pc) where
  place := place_goto s t pc
  sem file := by
    rw [hholds file]
    rfl
  nearer := by omega
  iterations := hle
  inLoop := hloop
  counter := .inl ⟨rfl, by rw [hstores]⟩
  loads := hloads

theorem run_turned (hle : s.i t ≤ maxValue) (hloop : (s.pc t).inLoop = true → s.i t < maxValue)
    (h : s.run maxValue t = some u) : ∃ pc i, Turned maxValue s t pc i u := by
  cases hpc : s.pc t with
  | fopen =>
      simp only [State.run, hpc, Option.ite_none_left_eq_some, Option.some.injEq] at h
      obtain ⟨-, rfl⟩ := h
      exact ⟨.done, _, .inside hle (by simp [hpc, Pc.left]) (fun hdone => by cases hdone)
        (by simp [hpc, Pc.holds]) (by simp [hpc, Pc.stores]) (by simp)⟩
  | semWait file =>
      have hlt := hloop (by rw [hpc]; rfl)
      simp only [State.run, hpc, Option.bind_eq_bind, Option.bind_eq_some_iff,
        Option.some.injEq] at h
      obtain ⟨value, hwait, rfl⟩ := h
      have hfree := semWait_eq_some.mp hwait
      refine ⟨.load file, s.i t, place_goto s t _, fun f => ?_, ?_, hle, fun _ => hlt,
        .inl ⟨rfl, ?_⟩, by simp⟩
      · by_cases hf : f = file
        · simp [hf, hpc, Pc.holds, hfree]
        · simp [hf, Ne.symm hf, hpc, Pc.holds]
      · simp [hpc, Pc.left]
      · simp [hpc, Pc.stores]
  | store file loaded =>
      have hlt := hloop (by rw [hpc]; rfl)
      simp only [State.run, hpc, Option.ite_none_right_eq_some, Option.some.injEq] at h
      obtain ⟨-, rfl⟩ := h
      refine ⟨.fprintf file, s.i t, place_goto s t _, fun f => ?_, ?_, hle, fun _ => hlt,
        .inr ⟨file, loaded, hpc, rfl, ?_⟩, by simp⟩
      · simp [hpc, Pc.holds, State.goto]
      · simp [hpc, Pc.left]
      · simp [hpc, Pc.stores]
  | load file | fprintf file | printf file number | sleep file number =>
      have hlt := hloop (by rw [hpc]; rfl)
      simp only [State.run, hpc, Option.some.injEq] at h
      subst h
      exact ⟨_, _, .inside hle (by simp [hpc, Pc.left]) (fun _ => hlt)
        (by simp [hpc, Pc.holds]) (by simp [hpc, Pc.stores]) (by simp)⟩
  | semPost file number =>
      have hlt := hloop (by rw [hpc]; rfl)
      simp only [State.run, hpc, Option.some.injEq] at h
      subst h
      refine ⟨.fclose file number, s.i t, place_goto s t _, fun f => ?_, ?_, hle, fun _ => hlt,
        .inl ⟨rfl, ?_⟩, by simp⟩
      · by_cases hf : f = file
        · simp [hf, hpc, Pc.holds, semPost]
        · simp [hf, Ne.symm hf, hpc, Pc.holds]
      · simp [hpc, Pc.left]
      · simp [hpc, Pc.stores]
  | fclose file number =>
      have hlt := hloop (by rw [hpc]; rfl)
      simp only [State.run, hpc, Option.some.injEq] at h
      subst h
      refine ⟨.fopen, s.i t + 1, place_closes s t _, fun f => ?_, ?_, hlt,
        (fun hopen => by cases hopen), .inl ⟨rfl, ?_⟩, by simp⟩
      · simp [hpc, Pc.holds, State.goto]
      · simp only [hpc, Pc.left]
        omega
      · simp [hpc, Pc.stores]
  | done => simp [State.run, hpc] at h

theorem step_turned {e : Event n} (hs : Orderly maxValue s) (h : step maxValue s e = some u) :
    ∃ t pc i, Turned maxValue s t pc i u := by
  cases e with
  | run t => exact ⟨t, run_turned (hs.iterations t) (hs.inLoop t) h⟩
  | fopen t file =>
      simp only [step, Option.ite_none_right_eq_some, Option.some.injEq] at h
      obtain ⟨⟨hpc, hmore⟩, rfl⟩ := h
      exact ⟨t, _, _, .inside (hs.iterations t) (by simp [hpc, Pc.left]) (fun _ => hmore)
        (by simp [hpc, Pc.holds]) (by simp [hpc, Pc.stores]) (by simp)⟩
  | fopenFails t =>
      simp only [step, Option.ite_none_right_eq_some, Option.some.injEq] at h
      obtain ⟨⟨hpc, -⟩, rfl⟩ := h
      exact ⟨t, .done, _, .inside (hs.iterations t) (by simp [hpc, Pc.left])
        (fun hdone => by cases hdone) (by simp [hpc, Pc.holds]) (by simp [hpc, Pc.stores])
        (by simp)⟩

theorem Turned.at (h : Turned maxValue s t pc i u) (v : Fin n) :
    (v = t ∧ u.pc v = pc ∧ u.i v = i) ∨ (v ≠ t ∧ u.pc v = s.pc v ∧ u.i v = s.i v) := by
  have hv := congrFun h.place v
  by_cases hvt : v = t
  · rw [hvt, Function.update_self, State.place, Prod.mk.injEq, ← hvt] at hv
    exact .inl ⟨hvt, hv⟩
  · rw [Function.update_of_ne hvt, State.place, State.place, Prod.mk.injEq] at hv
    exact .inr ⟨hvt, hv⟩

theorem Turned.stores (h : Turned maxValue s t pc i u) :
    u.stores + (s.i t + (s.pc t).stores) = s.stores + (i + pc.stores) := by
  rw [State.stores, h.place]
  exact sum_update (fun p : Pc × Nat => p.2 + p.1.stores) s.place t (pc, i)

theorem Turned.left (h : Turned maxValue s t pc i u) : u.left maxValue < s.left maxValue := by
  have hsum := sum_update (fun p : Pc × Nat => (maxValue - p.2) * 9 + p.1.left) s.place t (pc, i)
  rw [← h.place] at hsum
  have hnearer := h.nearer
  simp only [State.left]
  simp only [State.place] at hsum ⊢
  omega

theorem Turned.occupants (h : Turned maxValue s t pc i u) (file : File) :
    occupants (Pc.holds file) u.pc + ((s.pc t).holds file).toNat =
      occupants (Pc.holds file) s.pc + (pc.holds file).toNat := by
  have hpc : u.pc = Function.update s.pc t pc := by
    funext v
    cases h.at v with
    | inl hmoved => rw [hmoved.2.1, hmoved.1, Function.update_self]
    | inr hother => rw [hother.2.1, Function.update_of_ne hother.1]
  rw [hpc]
  exact occupants_update (Pc.holds file) s.pc t pc

theorem Orderly.start (n maxValue : Nat) : Orderly maxValue (start n) where
  sem file := by
    have hnone : Semaphore.occupants (Pc.holds file) (WritingFile.start n).pc = 0 := by
      simp [Semaphore.occupants, WritingFile.start, Pc.holds]
    rw [hnone]
    rfl
  inLoop t h := by cases h
  iterations _ := Nat.zero_le _
  counter := Nat.zero_le _
  loaded t file loaded h := by cases h

theorem Orderly.turned (hs : Orderly maxValue s) (h : Turned maxValue s t pc i u) :
    Orderly maxValue u := by
  have hstores := h.stores
  have hmore : s.stores ≤ u.stores := by
    cases h.counter with
    | inl hsame => omega
    | inr hstored =>
        obtain ⟨file, loaded, -, -, hone⟩ := hstored
        omega
  refine ⟨fun file => ?_, fun v hv => ?_, fun v => ?_, ?_, fun v file loaded hv => ?_⟩
  · have hsem := h.sem file
    have hoccupants := h.occupants file
    have hone := hs.sem file
    omega
  · cases h.at v with
    | inl hmoved =>
        rw [hmoved.2.1] at hv
        rw [hmoved.2.2]
        exact h.inLoop hv
    | inr hother =>
        rw [hother.2.1] at hv
        rw [hother.2.2]
        exact hs.inLoop v hv
  · cases h.at v with
    | inl hmoved =>
        rw [hmoved.2.2]
        exact h.iterations
    | inr hother =>
        rw [hother.2.2]
        exact hs.iterations v
  · have hcounter := hs.counter
    cases h.counter with
    | inl hsame => omega
    | inr hstored =>
        obtain ⟨file, loaded, hpc, hnext, hone⟩ := hstored
        have hloaded := hs.loaded t file loaded hpc
        omega
  · cases h.at v with
    | inl hmoved =>
        rw [hmoved.2.1] at hv
        rw [h.loads file loaded hv]
        exact Nat.le_trans hs.counter hmore
    | inr hother =>
        rw [hother.2.1] at hv
        exact Nat.le_trans (hs.loaded v file loaded hv) hmore

theorem Orderly.step {e : Event n} (hs : Orderly maxValue s) (h : step maxValue s e = some u) :
    Orderly maxValue u := by
  obtain ⟨t, pc, i, hturned⟩ := step_turned hs h
  exact hs.turned hturned

/-- Before a store there is one increment less than all iterations have. -/
theorem Orderly.loaded_lt (hs : Orderly maxValue s) {file : File} {loaded : Nat}
    (at_ : s.pc t = .store file loaded) : loaded < n * maxValue := by
  have hloaded := hs.loaded t file loaded at_
  have heach : ∀ v : Fin n, (s.place v).2 + (s.place v).1.stores ≤ maxValue := by
    intro v
    have hle := hs.iterations v
    have hloop := hs.inLoop v
    simp only [State.place]
    cases hv : s.pc v with
    | fopen | semWait | load | store | done =>
        simp only [Pc.stores]
        omega
    | fprintf | printf | sleep | semPost | fclose =>
        have hlt := hloop (by rw [hv]; rfl)
        simp only [Pc.stores]
        omega
  have hown : (s.place t).2 + (s.place t).1.stores < maxValue := by
    have hlt := hs.inLoop t (by rw [at_]; rfl)
    simpa [State.place, at_, Pc.stores] using hlt
  have hsum : s.stores < ∑ _v : Fin n, maxValue :=
    Finset.sum_lt_sum (fun v _ => heach v) ⟨t, Finset.mem_univ t, hown⟩
  rw [Finset.sum_const_nat fun _ _ => rfl, Finset.card_univ, Fintype.card_fin] at hsum
  omega

/-- A thread that does not wait for a semaphore can go on. -/
theorem Orderly.moves (hs : Orderly maxValue s) (hroom : n * maxValue ≤ intMax)
    (hgoes : s.pc t ≠ .done) (hfree : ∀ file, s.pc t = .semWait file → 0 < s.sem file) :
    ∃ e u, WritingFile.step maxValue s e = some u := by
  have hruns : (s.run maxValue t).isSome → ∃ e u, WritingFile.step maxValue s e = some u :=
    fun hsome => by
      obtain ⟨u, hu⟩ := Option.isSome_iff_exists.mp hsome
      exact ⟨.run t, u, hu⟩
  cases hpc : s.pc t with
  | fopen =>
      by_cases hmore : s.i t < maxValue
      · exact ⟨.fopen t .output1, _, if_pos ⟨hpc, hmore⟩⟩
      · exact hruns (by simp [State.run, hpc, hmore])
  | semWait file =>
      obtain ⟨value, hvalue⟩ := Nat.exists_eq_succ_of_ne_zero (hfree file hpc).ne'
      exact hruns (by simp [State.run, hpc, hvalue, semWait])
  | store file loaded =>
      have hbelow : loaded < intMax := Nat.lt_of_lt_of_le (hs.loaded_lt hpc) hroom
      exact hruns (by simp [State.run, hpc, hbelow])
  | load | fprintf | printf | sleep | semPost | fclose => exact hruns (by simp [State.run, hpc])
  | done => exact absurd hpc hgoes

/-- A thread that waits for a semaphore waits for another that does not. -/
theorem Orderly.progress (hs : Orderly maxValue s) (hroom : n * maxValue ≤ intMax) :
    s.Finished ∨ ∃ e u, WritingFile.step maxValue s e = some u := by
  by_cases hfinished : s.Finished
  · exact .inl hfinished
  · obtain ⟨t, ht⟩ := not_forall.mp hfinished
    by_cases hwaits : ∃ file, s.pc t = .semWait file ∧ s.sem file = 0
    · obtain ⟨file, -, hzero⟩ := hwaits
      have hone := hs.sem file
      have hheld : 0 < occupants (Pc.holds file) s.pc := by omega
      obtain ⟨v, hv⟩ := exists_occupant hheld
      refine .inr (hs.moves hroom (t := v) ?_ fun f hf => ?_)
      · intro hdone
        rw [hdone] at hv
        cases hv
      · rw [hf] at hv
        cases hv
    · refine .inr (hs.moves hroom ht fun file hf => Nat.pos_of_ne_zero fun hzero => ?_)
      exact hwaits ⟨file, hf, hzero⟩

/-- As long as the counter has room for all increments, every run of any number of threads
comes to an end with all of them returned, whatever files they draw and whichever cannot be
opened; and at no time do two threads hold the same semaphore. -/
theorem threads_finish (n maxValue : Nat) (hroom : n * maxValue ≤ intMax) :
    RunsTo (step maxValue) State.Finished (start n) ∧
      ∀ es s, run (step maxValue) (start n) es = some s → ∀ file,
        s.sem file + Semaphore.occupants (Pc.holds file) s.pc = 1 := by
  have hstep : ∀ (s : State n) (e : Event n) (u : State n), Orderly maxValue s →
      step maxValue s e = some u → Orderly maxValue u := fun s e u hs h => hs.step h
  refine ⟨runsTo_of_measure (μ := State.left maxValue) hstep ?_ ?_ (Orderly.start n maxValue),
    fun es s h => (invariant_run hstep (Orderly.start n maxValue) h).sem⟩
  · intro s e u hs h
    obtain ⟨t, pc, i, hturned⟩ := step_turned hs h
    exact hturned.left
  · exact fun s hs => hs.progress hroom

/-- `MAX_THREADS` and `MAX_VALUE` of the header. -/
theorem threads_finish_three : RunsTo (step 10) State.Finished (start 3) :=
  (threads_finish 3 10 (by decide)).1

end LinuxTraining.WritingFile
