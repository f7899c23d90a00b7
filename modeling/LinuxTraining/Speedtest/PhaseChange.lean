import LinuxTraining.Speedtest.Turns

/-!
The change from the download to the upload phase. Nothing but the flag
`thread_all_stop` ends the download workers, and `run_proc` resets it without
waiting for them. A worker that has not polled it by then goes on.
-/
namespace LinuxTraining.Speedtest
open Execution Threads

def MainPc.phase : MainPc → Phase
  | .testTime phase | .testStop phase => phase
  | .copyServinfo phase _ | .copyDomainName phase _ | .copyRequestUrl phase _ => phase
  | .testRunning phase _ | .setIndex phase _ | .setRunning phase _ | .create phase _ => phase
  | .sleep | .resetStop | .speedtestUpload => .download
  | .returned => .upload

/-- Main has entered `speedtest_upload`. -/
def InUpload (s : State) : Prop := s.main.phase = .upload

def MainPc.Slept : MainPc → Prop
  | .resetStop | .speedtestUpload => True
  | main => main.phase = .upload

/-- The time that main sleeps is enough for the workers to end. -/
def SleepsLong (s : State) : Event → Prop
  | .main _ => s.main = .sleep → ∀ w ∈ s.workers, w.pc = .done
  | .worker _ _ => True

/-- No download worker is active, and a running slot belongs to an upload worker, or to
the one that main is about to create. -/
def UploadOnly (s : State) : Prop :=
  (∀ w ∈ s.workers, w.phase = .download → w.pc = .done) ∧
    ∀ i, (s.shared.thread i).running = true →
      (∃ w ∈ s.workers, w.phase = .upload ∧ w.arg = i ∧ w.pc ≠ .done) ∨
        s.main = .create .upload i

/-- In each state of the run in which main has entered `speedtest_upload`, only upload workers
are active, and the download counter stands where it ends. -/
def UploadAlone (cfg : Config) (as : List Event) (s : State) : Prop :=
  ∀ bs cs t, as = bs ++ cs → run (step cfg) start bs = some t → InUpload t →
    UploadOnly t ∧ s.shared.total_size .download = t.shared.total_size .download

structure Owned (s : State) : Prop where
  slot : ∀ w ∈ s.workers, (s.shared.thread w.arg).thread_index = w.arg
  index : ∀ w ∈ s.workers, w.pc ≠ .start → w.i = w.arg
  running : ∀ i, (s.shared.thread i).running = true →
    (∃ w ∈ s.workers, w.arg = i ∧ w.pc ≠ .done) ∨ ∃ phase, s.main = .create phase i
  creating : ∀ phase i, s.main = .setRunning phase i ∨ s.main = .create phase i →
    (s.shared.thread i).thread_index = i
  phases : ∀ w ∈ s.workers, w.phase = .upload → InUpload s

variable {cfg : Config} {s t : State} {sh' : Shared} {k : Nat} {w w' : Worker} {answer : Int}

/-- Only the call of `speedtest_upload` changes the phase. -/
theorem MainMoved.phase {elapsed : Bool} (h : MainMoved cfg s elapsed t) :
    t.main.phase = s.main.phase ∨
      (s.main = .speedtestUpload ∧ t.main = .testTime .upload ∧ t.workers = s.workers) := by
  cases h with
  | speedtestUpload at_ => exact .inr ⟨at_, rfl, rfl⟩
  | testTime phase at_ | copyServinfo phase i at_ _ | endOfTurn phase i at_ _
  | copyDomainName phase i at_ | copyRequestUrl phase i at_ | busy phase i at_ _
  | free phase i at_ _ | setIndex phase i at_ | setRunning phase i at_ | create phase i at_
  | goOn phase at_ | stopDownload at_ | stopUpload at_ | sleep at_ | resetStop at_ =>
      left
      rw [at_]
      rfl

theorem MainMoved.inUpload {elapsed : Bool} (h : MainMoved cfg s elapsed t)
    (hup : InUpload s) : InUpload t := by
  unfold InUpload at hup ⊢
  cases h.phase with
  | inl hphase =>
      rw [hphase, hup]
  | inr henters =>
      obtain ⟨_, hmain, _⟩ := henters
      rw [hmain]
      rfl

theorem MainMoved.slept {elapsed : Bool} (h : MainMoved cfg s elapsed t) (hslept : t.main.Slept) :
    s.main.Slept ∨ (s.main = .sleep ∧ t.workers = s.workers) := by
  cases h with
  | sleep at_ => exact .inr ⟨at_, rfl⟩
  | resetStop at_ | speedtestUpload at_ =>
      left
      rw [at_]
      trivial
  | stopDownload at_ => cases hslept
  | testTime phase at_ | copyServinfo phase i at_ _ | endOfTurn phase i at_ _
  | copyDomainName phase i at_ | copyRequestUrl phase i at_ | busy phase i at_ _
  | free phase i at_ _ | setIndex phase i at_ | setRunning phase i at_ | create phase i at_
  | goOn phase at_ =>
      left
      rw [at_]
      exact hslept
  | stopUpload at_ =>
      left
      rw [at_]
      rfl

theorem Owned.start : Owned start where
  slot := by simp [Speedtest.start]
  index := by simp [Speedtest.start]
  running := by simp [Speedtest.start]
  creating := by simp [Speedtest.start]
  phases := by simp [Speedtest.start]

theorem Owned.worker (owned : Owned s) (hw : s.workers[k]? = some w)
    (h : Moved s.shared k w answer w' sh') :
    Owned { s with workers := s.workers.set k w', shared := sh' } := by
  have hmem := List.mem_of_getElem? hw
  obtain ⟨hphase, harg⟩ := h.frame
  have hindex : w'.i = w.arg := by
    by_cases hpc : w.pc = .start
    · rw [h.index.1 hpc, owned.slot w hmem]
    · rw [h.index.2 hpc, owned.index w hmem hpc]
  refine ⟨?_, ?_, ?_, ?_, ?_⟩
  · simp only [(h.thread _).1]
    exact forall_moved owned.slot (by rw [harg, owned.slot w hmem])
  · exact forall_moved owned.index fun _ => by rw [hindex, harg]
  · intro i hrunning
    obtain ⟨hbefore, hnot⟩ := (h.thread i).2.2.2.2 hrunning
    cases owned.running i hbefore with
    | inl hworker =>
        obtain ⟨v, hv, hvarg, hvpc⟩ := hworker
        left
        obtain ⟨j, hj⟩ := List.mem_iff_getElem?.mp hv
        by_cases hjk : j = k
        · subst hjk
          rw [hw] at hj
          cases hj
          refine ⟨w', (mem_set_iff hw).mpr (.inl rfl), by rw [harg, hvarg], fun hdone => ?_⟩
          have hstart : w.pc ≠ .start := by
            rw [h.done.2 hdone]
            simp
          exact hnot hdone (by rw [owned.index w hmem hstart, hvarg])
        · exact ⟨v, (mem_set_iff hw).mpr (.inr ⟨j, hjk, hj⟩), hvarg, hvpc⟩
    | inr hmain =>
        exact .inr hmain
  · intro phase i hmain
    rw [(h.thread i).1]
    exact owned.creating phase i hmain
  · exact forall_moved owned.phases fun hup => owned.phases w hmem (by rw [← hphase, hup])

/-- A slot that runs has its worker, unless main is about to create it. -/
theorem Owned.exists_worker (owned : Owned s) (hmain : ∀ phase i, s.main ≠ .create phase i)
    {i : Nat} (hrunning : (s.shared.thread i).running = true) :
    ∃ w ∈ s.workers, w.arg = i ∧ w.pc ≠ .done := by
  cases owned.running i hrunning with
  | inl hworker =>
      exact hworker
  | inr hstarting =>
      obtain ⟨phase, hcreates⟩ := hstarting
      exact absurd hcreates (hmain phase i)

theorem Owned.keep (owned : Owned s) (hworkers : t.workers = s.workers)
    (hslots : ∀ j, (t.shared.thread j).thread_index = (s.shared.thread j).thread_index ∧
      (t.shared.thread j).running = (s.shared.thread j).running)
    (hbefore : ∀ phase i, s.main ≠ .create phase i)
    (hafter : ∀ phase i, t.main ≠ .setRunning phase i ∧ t.main ≠ .create phase i)
    (hupload : InUpload s → InUpload t) : Owned t := by
  refine ⟨?_, ?_, ?_, ?_, ?_⟩
  · rw [hworkers]
    intro w hw
    rw [(hslots w.arg).1, owned.slot w hw]
  · rw [hworkers]
    exact owned.index
  · rw [hworkers]
    intro i hrunning
    rw [(hslots i).2] at hrunning
    exact .inl (owned.exists_worker hbefore hrunning)
  · intro phase i hmain
    cases hmain with
    | inl hmain =>
        exact absurd hmain (hafter phase i).1
    | inr hmain =>
        exact absurd hmain (hafter phase i).2
  · rw [hworkers]
    exact fun w hw hup => hupload (owned.phases w hw hup)

theorem setSlot_same {sh : Shared} {i : Nat} {slot : Slot}
    (hindex : slot.thread_index = (sh.thread i).thread_index)
    (hrunning : slot.running = (sh.thread i).running) (j : Nat) :
    ((sh.setSlot i slot).thread j).thread_index = (sh.thread j).thread_index ∧
      ((sh.setSlot i slot).thread j).running = (sh.thread j).running := by
  by_cases hj : j = i
  · subst hj
    simp [Shared.setSlot, hindex, hrunning]
  · simp [Shared.setSlot, hj]

theorem Owned.main {elapsed : Bool} (owned : Owned s) (h : MainMoved cfg s elapsed t) :
    Owned t := by
  have hupload := h.inUpload
  cases h with
  | setIndex phase i at_ =>
      refine ⟨?_, owned.index, ?_, ?_, ?_⟩
      · intro w hw
        by_cases hi : w.arg = i
        · simp [Shared.setSlot, hi]
        · simpa [Shared.setSlot, hi] using owned.slot w hw
      · intro j hrunning
        have hbefore : (s.shared.thread j).running = true := by
          by_cases hj : j = i
          · subst hj
            simpa [Shared.setSlot] using hrunning
          · simpa [Shared.setSlot, hj] using hrunning
        exact .inl (owned.exists_worker (by simp [at_]) hbefore)
      · intro phase' j hmain
        cases hmain with
        | inl hmain =>
            cases hmain
            simp [Shared.setSlot]
        | inr hmain =>
            cases hmain
      · exact fun w hw hup => hupload (owned.phases w hw hup)
  | setRunning phase i at_ =>
      refine ⟨?_, owned.index, ?_, ?_, ?_⟩
      · intro w hw
        by_cases hi : w.arg = i
        · have := owned.slot w hw
          rw [hi] at this
          simp [Shared.setSlot, hi, this]
        · simpa [Shared.setSlot, hi] using owned.slot w hw
      · intro j hrunning
        by_cases hj : j = i
        · exact .inr ⟨phase, by rw [hj]⟩
        · have hbefore : (s.shared.thread j).running = true := by
            simpa [Shared.setSlot, hj] using hrunning
          exact .inl (owned.exists_worker (by simp [at_]) hbefore)
      · intro phase' j hmain
        cases hmain with
        | inl hmain =>
            cases hmain
        | inr hmain =>
            cases hmain
            simpa [Shared.setSlot] using owned.creating phase i (.inl at_)
      · exact fun w hw hup => hupload (owned.phases w hw hup)
  | create phase i at_ =>
      refine ⟨?_, ?_, ?_, ?_, ?_⟩
      · exact forall_created owned.slot (owned.creating phase i (.inr at_))
      · exact forall_created owned.index fun hpc => absurd rfl hpc
      · intro j hrunning
        left
        cases owned.running j hrunning with
        | inl hwork =>
            obtain ⟨w, hw, hworker⟩ := hwork
            exact ⟨w, List.mem_append_left _ hw, hworker⟩
        | inr hstarting =>
            obtain ⟨phase', hmain⟩ := hstarting
            rw [at_] at hmain
            cases hmain
            exact ⟨.created phase i, List.mem_append_right _ List.mem_cons_self, rfl, by
              simp [Worker.created]⟩
      · intro phase' j hmain
        rcases hmain with hmain | hmain <;> cases hmain
      · exact forall_created (fun w hw hup => hupload (owned.phases w hw hup)) fun hup => hup
  | testTime phase at_ =>
      refine owned.keep rfl (fun j => ?_) (by simp [at_]) (by simp) hupload
      cases elapsed <;> exact ⟨rfl, rfl⟩
  | copyServinfo phase i at_ _ | copyDomainName phase i at_ | copyRequestUrl phase i at_ =>
      exact owned.keep rfl (setSlot_same rfl rfl) (by simp [at_]) (by simp) hupload
  | endOfTurn phase i at_ _ | busy phase i at_ _ | free phase i at_ _ | goOn phase at_
  | stopDownload at_ | stopUpload at_ | sleep at_ | resetStop at_ | speedtestUpload at_ =>
      exact owned.keep rfl (fun j => ⟨rfl, rfl⟩) (by simp [at_]) (by simp) hupload

def Separated (s : State) : Prop :=
  Owned s ∧ (s.main.Slept → ∀ w ∈ s.workers, w.phase = .download → w.pc = .done)

theorem InUpload.slept (hup : InUpload s) : s.main.Slept := by
  rw [InUpload] at hup
  cases hmain : s.main with
  | resetStop | speedtestUpload => trivial
  | _ =>
      rw [hmain] at hup
      exact hup

theorem Owned.step {e : Event} (owned : Owned s) (h : step cfg s e = some t) : Owned t := by
  cases e with
  | main elapsed => exact owned.main (mainStep_moved h)
  | worker k answer =>
      obtain ⟨w, w', sh', hw, hstep, rfl⟩ := step_worker h
      exact owned.worker hw (workerStep_moved hstep)

theorem Separated.step {e : Event} (sep : Separated s) (long : SleepsLong s e)
    (h : step cfg s e = some t) : Separated t := by
  refine ⟨sep.1.step h, fun hslept w hw hdown => ?_⟩
  cases e with
  | main elapsed =>
      have hmoved := mainStep_moved h
      cases hmoved.slept hslept with
      | inl hbefore =>
          cases hmoved.frame.2.2.2 with
          | inl hworkers =>
              rw [hworkers] at hw
              exact sep.2 hbefore w hw hdown
          | inr hcreates =>
              obtain ⟨phase, i, hmain, hworkers⟩ := hcreates
              rw [hworkers] at hw
              cases List.mem_append.mp hw with
              | inl hw =>
                  exact sep.2 hbefore w hw hdown
              | inr hw =>
                  rw [List.mem_singleton.mp hw] at hdown
                  rw [hmain] at hbefore
                  exact absurd (hdown.symm.trans hbefore) Phase.noConfusion
      | inr hwakes =>
          obtain ⟨hmain, hworkers⟩ := hwakes
          rw [hworkers] at hw
          exact long hmain w hw
  | worker k answer =>
      obtain ⟨v, v', sh', hv, hstep, rfl⟩ := step_worker h
      have hmoved := workerStep_moved hstep
      cases (mem_set_iff hv).mp hw with
      | inl hsame =>
          subst hsame
          have hend := sep.2 hslept v (List.mem_of_getElem? hv) (by rw [← hmoved.frame.1, hdown])
          exact absurd hend hmoved.done.1
      | inr hold =>
          obtain ⟨j, _, hj⟩ := hold
          exact sep.2 hslept w (List.mem_of_getElem? hj) hdown

theorem Separated.uploadOnly (sep : Separated s) (hup : InUpload s) : UploadOnly s := by
  have hended := sep.2 hup.slept
  refine ⟨hended, fun i hrunning => ?_⟩
  cases sep.1.running i hrunning with
  | inl hwork =>
      obtain ⟨w, hw, harg, hpc⟩ := hwork
      left
      refine ⟨w, hw, ?_, harg, hpc⟩
      cases hphase : w.phase with
      | download => exact absurd (hended w hw hphase) hpc
      | upload => rfl
  | inr hstarting =>
      obtain ⟨phase, hmain⟩ := hstarting
      right
      rw [InUpload, hmain] at hup
      rw [hmain, show phase = .upload from hup]

/-- A worker only touches the counter of its own phase. -/
theorem Moved.total (h : Moved s.shared k w answer w' sh') {p : Phase} (hp : w.phase ≠ p) :
    sh'.total_size p = s.shared.total_size p := by
  cases h with
  | stores size total after at_ => simp [Ne.symm hp]
  | _ => rfl

/-- In the upload phase the download counter stands still. -/
theorem Separated.still {e : Event} (sep : Separated s) (hup : InUpload s)
    (h : Speedtest.step cfg s e = some t) : (Separated t ∧ InUpload t) ∧
      t.shared.total_size .download = s.shared.total_size .download := by
  cases e with
  | main elapsed =>
      have hlong : SleepsLong s (.main elapsed) := by
        intro hmain
        rw [InUpload, hmain] at hup
        cases hup
      have hmoved := mainStep_moved h
      exact ⟨⟨sep.step hlong h, hmoved.inUpload hup⟩, by rw [hmoved.frame.2.1]⟩
  | worker k answer =>
      have hsep := sep.step (e := .worker k answer) trivial h
      obtain ⟨v, v', sh', hv, hstep, rfl⟩ := step_worker h
      have hmoved := workerStep_moved hstep
      refine ⟨⟨hsep, hup⟩, hmoved.total fun hdown => ?_⟩
      exact hmoved.done.1 (sep.2 hup.slept v (List.mem_of_getElem? hv) hdown)

theorem Separated.start : Separated start :=
  ⟨Owned.start, fun hslept => by cases hslept⟩

theorem uploadAlone_of_long {as : List Event} (h : run (step cfg) start as = some s)
    (long : Along (step cfg) SleepsLong start as) : UploadAlone cfg as s := by
  rintro bs cs t rfl ht hup
  have hsep := invariant_along (fun _ _ _ hs ha hstep => hs.step ha hstep) Separated.start
    ((along_append ht).mp long).1 ht
  obtain ⟨m, hm, hs⟩ := run_append.mp h
  rw [ht] at hm
  cases hm
  refine ⟨hsep.uploadOnly hup, ?_⟩
  refine (invariant_run (I := fun u => (Separated u ∧ InUpload u) ∧
    u.shared.total_size .download = t.shared.total_size .download) ?_ ⟨⟨hsep, hup⟩, rfl⟩ hs).2
  intro u e v ⟨⟨husep, huup⟩, hu⟩ hstep
  obtain ⟨hv, htotal⟩ := husep.still huup hstep
  exact ⟨hv, htotal.trans hu⟩

/-- Main is past the test that there is a slot left to fill. -/
def MainPc.fills : MainPc → Bool
  | .copyDomainName _ _ | .copyRequestUrl _ _ | .testRunning _ _ | .setIndex _ _
  | .setRunning _ _ | .create _ _ => true
  | _ => false

def Idle (s : State) : Prop := s.workers = [] ∧ s.main.fills = false

theorem Idle.step {e : Event} (hzero : cfg.thread_nums = 0) (idle : Idle s)
    (h : Speedtest.step cfg s e = some t) : Idle t := by
  obtain ⟨hworkers, hfills⟩ := idle
  cases e with
  | worker k answer =>
      obtain ⟨w, -, -, hw, -⟩ := step_worker h
      rw [hworkers] at hw
      cases hw
  | main elapsed =>
      cases mainStep_moved h with
      | copyServinfo phase i at_ below => omega
      | copyDomainName phase i at_ | copyRequestUrl phase i at_ | busy phase i at_
      | free phase i at_ | setIndex phase i at_ | setRunning phase i at_ | create phase i at_ =>
          rw [at_] at hfills
          cases hfills
      | testTime phase at_ | endOfTurn phase i at_ _ | goOn phase at_ | stopDownload at_
      | stopUpload at_ | sleep at_ | resetStop at_ | speedtestUpload at_ =>
          exact ⟨hworkers, rfl⟩

theorem uploadAlone_of_idle {as : List Event} (hzero : cfg.thread_nums = 0)
    (h : run (step cfg) start as = some s) : UploadAlone cfg as s := by
  have idle : ∀ bs t, run (step cfg) start bs = some t → Idle t := fun bs t ht =>
    invariant_run (fun _ _ _ hs hstep => Idle.step hzero hs hstep) ⟨rfl, rfl⟩ ht
  apply uploadAlone_of_long h
  by_contra hnot
  obtain ⟨bs, e, cs, m, t, -, hm, hshort, -⟩ := exists_not_along h hnot
  cases e with
  | worker k answer => exact hshort trivial
  | main elapsed =>
      refine hshort fun _ w hw => ?_
      rw [(idle bs m hm).1] at hw
      cases hw

/-- With a thread there is a run in which its worker has not begun when main enters the upload
phase. -/
theorem exists_late_worker (hpos : 0 < cfg.thread_nums) :
    ∃ as t, run (step cfg) start as = some t ∧ InUpload t ∧ ¬ UploadOnly t := by
  have hcreate : run (step cfg) shortTurn (List.replicate 7 (.main false)) =
      some (shortTurn.created cfg .download 0) := run_create rfl hpos rfl
  obtain ⟨as, t, ht, hmain, -, hstop, hkept⟩ :=
    run_turn cfg (s := shortTurn.created cfg .download 0) rfl Nat.one_pos
  have hchange : run (step cfg) t _ = _ := run_change hmain (hstop.trans rfl)
  refine ⟨_, _, run_append.mpr ⟨_, run_shortTurn, run_append.mpr ⟨_, hcreate,
    run_append.mpr ⟨t, ht, hchange⟩⟩⟩, rfl, fun honly => ?_⟩
  have hworker : Worker.created .download 0 ∈ t.workers :=
    hkept.subset (List.mem_append_right _ List.mem_cons_self)
  exact Pc.noConfusion (honly.1 _ hworker rfl)

/-- The phases are kept apart in every run only if there is no thread. In one run it is enough
that the workers end while main sleeps. -/
theorem upload_alone_iff (cfg : Config) :
    ((∀ as s, run (step cfg) start as = some s → UploadAlone cfg as s) ↔ cfg.thread_nums = 0) ∧
      ∀ as s, run (step cfg) start as = some s → Along (step cfg) SleepsLong start as →
        UploadAlone cfg as s := by
  refine ⟨⟨fun hall => ?_, fun hzero as s => uploadAlone_of_idle hzero⟩,
    fun as s => uploadAlone_of_long⟩
  by_contra hsome
  obtain ⟨as, t, ht, hup, hnot⟩ := exists_late_worker (Nat.pos_of_ne_zero hsome)
  exact hnot (hall as t ht as [] t (List.append_nil as).symm ht hup).1

instance (s : State) : (e : Event) → Decidable (SleepsLong s e)
  | .main _ => inferInstanceAs (Decidable (s.main = .sleep → ∀ w ∈ s.workers, w.pc = .done))
  | .worker _ _ => inferInstanceAs (Decidable True)

def shortDownload : List Event := .main true :: List.replicate 7 (.main false)

def toUpload : List Event := List.replicate 5 (.main false)

/-- The worker gets no socket and ends before the upload phase. -/
theorem upload_alone_after_end :
    ∃ s, run (step oneThread) start (shortDownload ++
        [.worker 0 0, .worker 0 (-1), .worker 0 0, .worker 0 0] ++ toUpload) = some s ∧
      InUpload s ∧ UploadOnly s := by
  have hends : (run (step oneThread) start (shortDownload ++
      [.worker 0 0, .worker 0 (-1), .worker 0 0, .worker 0 0] ++ toUpload)).map
        (fun s => s.main) = some (.testTime .upload) := by decide +kernel
  obtain ⟨s, hs, hmain⟩ := Option.map_eq_some_iff.mp hends
  have hup : InUpload s := by
    rw [InUpload, hmain]
    rfl
  have halone := (upload_alone_iff oneThread).2 _ s hs (by decide +kernel)
  exact ⟨s, hs, hup, (halone _ [] s (by simp) hs hup).1⟩

/-- The worker is still connecting when the upload phase begins, and counts what it
receives then. -/
theorem download_worker_in_upload :
    ∃ t s, run (step oneThread) start (shortDownload ++ [.worker 0 0, .worker 0 3] ++ toUpload) =
        some t ∧ InUpload t ∧ ¬ UploadOnly t ∧
      run (step oneThread) t [.worker 0 0, .worker 0 0, .worker 0 0, .worker 0 99, .worker 0 1,
        .worker 0 5, .worker 0 0, .worker 0 0, .worker 0 0] = some s ∧
      s.shared.total_size .download ≠ t.shared.total_size .download := by
  have hfirst : (run (step oneThread) start (shortDownload ++ [.worker 0 0, .worker 0 3] ++
      toUpload)).map (fun t => (t.main, t.workers.map fun w => (w.phase, w.pc),
        t.shared.total_size .download)) =
      some (.testTime .upload, [(.download, .connect)], 0) := by decide +kernel
  have hall : (run (step oneThread) start (shortDownload ++ [.worker 0 0, .worker 0 3] ++
      toUpload ++ [.worker 0 0, .worker 0 0, .worker 0 0, .worker 0 99, .worker 0 1,
        .worker 0 5, .worker 0 0, .worker 0 0, .worker 0 0])).map
        (fun s => s.shared.total_size .download) = some 5 := by decide +kernel
  obtain ⟨t, ht, hends⟩ := Option.map_eq_some_iff.mp hfirst
  simp only [Prod.mk.injEq] at hends
  obtain ⟨hmain, hworkers, hzero⟩ := hends
  obtain ⟨s, hs, hfive⟩ := Option.map_eq_some_iff.mp hall
  obtain ⟨m, hm, hs⟩ := run_append.mp hs
  rw [ht] at hm
  cases hm
  refine ⟨t, s, ht, ?_, ?_, hs, by rw [hfive, hzero]; decide⟩
  · rw [InUpload, hmain]
    rfl
  · intro honly
    have hmem : (Phase.download, Pc.connect) ∈ t.workers.map fun w => (w.phase, w.pc) := by
      rw [hworkers]
      exact List.mem_cons_self
    obtain ⟨w, hw, hpair⟩ := List.mem_map.mp hmem
    simp only [Prod.mk.injEq] at hpair
    have hdone := honly.1 w hw hpair.1
    rw [hpair.2] at hdone
    cases hdone

end LinuxTraining.Speedtest
