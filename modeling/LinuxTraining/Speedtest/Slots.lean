import LinuxTraining.Speedtest.WorkerTargets
import Mathlib.Data.List.Count
import Mathlib.Data.List.Nodup
import Mathlib.Data.List.Perm.Subperm

/-!
How a slot of the thread table goes from one worker to the next. Main polls the
`running` flag of the slot, and the last thing a worker does is to clear it, by
whatever way it came to its end.
-/
namespace LinuxTraining.Speedtest
open Execution Threads

/-- The worker was created for the slot and has not cleared the flag yet. -/
def Worker.worksOn (i : Nat) (w : Worker) : Bool := w.arg = i ∧ w.pc ≠ .done

def active (s : State) (i : Nat) : Nat := s.workers.countP (Worker.worksOn i)

/-- Main has found the slot free and has not created the next worker yet. -/
def Taken (main : MainPc) (i : Nat) : Prop :=
  ∃ phase, main = .setIndex phase i ∨ main = .setRunning phase i ∨ main = .create phase i

/-- A slot has a worker at most, and its flag is set as long as it has. -/
structure Handed (s : State) : Prop where
  owned : Owned s
  single : ∀ i, active s i ≤ 1
  running : ∀ i, 0 < active s i → (s.shared.thread i).running = true
  taken : ∀ i, Taken s.main i → active s i = 0
  creating : ∀ phase i, s.main = .create phase i → (s.shared.thread i).running = true

/-- What the table means for the workers: one to a slot, on the slot it was created for, and
so no more of them than slots that main drives. -/
structure OneWorkerEach (cfg : Config) (s : State) : Prop where
  single : ∀ i, active s i ≤ 1
  running : ∀ i, active s i = 1 →
    (s.shared.thread i).running = true ∧ (s.shared.thread i).thread_index = i
  total : s.workers.countP (fun w => w.pc ≠ .done) ≤ cfg.thread_nums
  apart : ∀ (j k : Nat) (w v : Worker), j ≠ k → s.workers[j]? = some w →
    s.workers[k]? = some v → w.pc ≠ .done → v.pc ≠ .done →
    w.arg ≠ v.arg ∧ (w.pc ≠ .start → v.pc ≠ .start → w.i ≠ v.i)

variable {cfg : Config} {s t : State} {sh' : Shared} {k : Nat} {w w' : Worker} {answer : Int}

theorem Worker.worksOn_iff {i : Nat} : w.worksOn i = true ↔ w.arg = i ∧ w.pc ≠ .done :=
  decide_eq_true_iff

theorem active_pos_iff {i : Nat} :
    0 < active s i ↔ ∃ w ∈ s.workers, w.arg = i ∧ w.pc ≠ .done := by
  simp only [active, List.countP_pos_iff, Worker.worksOn_iff]

/-- The slots that are worked on are slots that main drives, each by one worker. -/
theorem active_total {n : Nat} (hsingle : ∀ i, active s i ≤ 1)
    (hbelow : ∀ w ∈ s.workers, w.arg < n) :
    s.workers.countP (fun w => w.pc ≠ .done) ≤ n := by
  let slots := (s.workers.filter fun w => w.pc ≠ .done).map Worker.arg
  have hnodup : slots.Nodup := by
    apply List.nodup_iff_count_le_one.mpr
    intro i
    have hcount : slots.count i = active s i := by
      rw [List.count, List.countP_map, List.countP_filter]
      apply List.countP_congr
      intro w hw
      simp [Worker.worksOn]
    rw [hcount]
    exact hsingle i
  have hsub : slots ⊆ List.range n := by
    intro i hi
    obtain ⟨w, hw, rfl⟩ := List.mem_map.mp hi
    exact List.mem_range.mpr (hbelow w (List.mem_filter.mp hw).1)
  have hlength := (hnodup.subperm hsub).length_le
  rwa [List.length_map, List.length_range, ← List.countP_eq_length_filter] at hlength

theorem active_moved (hw : s.workers[k]? = some w) (sh' : Shared) (i : Nat) :
    active { s with workers := s.workers.set k w', shared := sh' } i + (w.worksOn i).toNat =
      active s i + (w'.worksOn i).toNat :=
  countP_moved (Worker.worksOn i) hw w'

theorem Handed.start : Handed start where
  owned := Owned.start
  single := by simp [active, Speedtest.start]
  running := by simp [active, Speedtest.start]
  taken := by simp [active, Speedtest.start]
  creating := by simp [Speedtest.start]

/-- The flag that a worker clears is that of the slot it works on. -/
theorem Handed.flag (handed : Handed s) (hw : s.workers[k]? = some w)
    (h : Moved s.shared k w answer w' sh') {i : Nat}
    (hother : w.arg ≠ i ∨ w'.pc ≠ .done) (hrunning : (s.shared.thread i).running = true) :
    (sh'.thread i).running = true := by
  cases h.table with
  | inl hkeeps =>
      obtain ⟨_, _, hsame⟩ := hkeeps
      rw [hsame]
      exact hrunning
  | inr hends =>
      obtain ⟨hpc, rfl, rfl⟩ := hends
      have hstart : w.pc ≠ .start := by
        rw [hpc]
        exact Pc.noConfusion
      have hindex := handed.owned.index w (List.mem_of_getElem? hw) hstart
      have hne : i ≠ w.i := by
        rw [hindex]
        exact (hother.resolve_right fun hnot => hnot rfl).symm
      simpa [Shared.setSlot, hne] using hrunning

theorem Handed.worker (handed : Handed s) (hw : s.workers[k]? = some w)
    (h : Moved s.shared k w answer w' sh') :
    Handed { s with workers := s.workers.set k w', shared := sh' } := by
  have hworks : ∀ i, w.worksOn i = true ↔ w.arg = i := fun i =>
    Worker.worksOn_iff.trans (and_iff_left h.done.1)
  have hworks' : ∀ i, w'.worksOn i = true ↔ w.arg = i ∧ w'.pc ≠ .done := fun i =>
    h.frame.2 ▸ Worker.worksOn_iff
  have hfewer : ∀ i, active { s with workers := s.workers.set k w', shared := sh' } i ≤
      active s i := by
    intro i
    have hcount := @active_moved s k w w' hw sh' i
    cases hnew : w'.worksOn i with
    | false =>
        rw [hnew, Bool.toNat_false, Nat.add_zero] at hcount
        omega
    | true =>
        rw [hnew, (hworks i).mpr ((hworks' i).mp hnew).1] at hcount
        omega
  refine ⟨handed.owned.worker hw h, ?_, ?_, ?_, ?_⟩
  · exact fun i => Nat.le_trans (hfewer i) (handed.single i)
  · intro i hactive
    refine handed.flag hw h ?_ (handed.running i (Nat.lt_of_lt_of_le hactive (hfewer i)))
    by_contra hends
    rw [not_or, not_not, not_not] at hends
    have hold := (hworks i).mpr hends.1
    have hnew : w'.worksOn i = false :=
      Bool.eq_false_iff.mpr fun hnew => ((hworks' i).mp hnew).2 hends.2
    have hsingle := handed.single i
    have hcount := @active_moved s k w w' hw sh' i
    rw [hold, hnew, Bool.toNat_true, Bool.toNat_false] at hcount
    omega
  · exact fun i htaken => Nat.le_zero.mp (handed.taken i htaken ▸ hfewer i)
  · intro phase i hmain
    refine handed.flag hw h (.inl fun harg => ?_) (handed.creating phase i hmain)
    have hpos : 0 < active s i := countP_pos hw ((hworks i).mpr harg)
    rw [handed.taken i ⟨phase, .inr (.inr hmain)⟩] at hpos
    exact Nat.lt_irrefl 0 hpos

theorem Handed.keep (handed : Handed s) (owned : Owned t) (hworkers : t.workers = s.workers)
    (hflags : ∀ i, (s.shared.thread i).running = true → (t.shared.thread i).running = true)
    (htaken : ∀ i, Taken t.main i → Taken s.main i)
    (hcreating : ∀ phase i, t.main = .create phase i → (t.shared.thread i).running = true) :
    Handed t := by
  have hactive : ∀ i, active t i = active s i := fun i => by rw [active, hworkers, active]
  refine ⟨owned, ?_, ?_, ?_, hcreating⟩
  · exact fun i => hactive i ▸ handed.single i
  · exact fun i hpos => hflags i (handed.running i (hactive i ▸ hpos))
  · exact fun i h => (hactive i).trans (handed.taken i (htaken i h))

theorem flag_setSlot {sh : Shared} {i : Nat} {slot : Slot}
    (hslot : (sh.thread i).running = true → slot.running = true) (j : Nat)
    (hrunning : (sh.thread j).running = true) : ((sh.setSlot i slot).thread j).running = true := by
  by_cases hj : j = i
  · subst hj
    simpa [Shared.setSlot] using hslot hrunning
  · simpa [Shared.setSlot, hj] using hrunning

/-- The new worker is the only one of a slot that was found free. -/
theorem Handed.create (handed : Handed s) {phase : Phase} {i : Nat}
    (at_ : s.main = .create phase i)
    (owned : Owned { s with
      main := .copyServinfo phase (i + 1), workers := s.workers ++ [.created phase i] }) :
    Handed { s with
      main := .copyServinfo phase (i + 1), workers := s.workers ++ [.created phase i] } := by
  have hfree := handed.taken i ⟨phase, .inr (.inr at_)⟩
  have hactive : ∀ j, (s.workers ++ [Worker.created phase i]).countP (Worker.worksOn j) =
      active s j + if i = j then 1 else 0 := by
    intro j
    rw [List.countP_append, List.countP_singleton]
    simp [active, Worker.worksOn, Worker.created]
  refine ⟨owned, ?_, ?_, ?_, fun _ _ hmain => by cases hmain⟩
  · intro j
    rw [active, hactive]
    by_cases hij : i = j
    · subst hij
      rw [hfree, if_pos rfl]
    · rw [if_neg hij]
      exact handed.single j
  · intro j hpos
    rw [active, hactive] at hpos
    by_cases hij : i = j
    · subst hij
      exact handed.creating phase i at_
    · rw [if_neg hij] at hpos
      exact handed.running j hpos
  · rintro j ⟨phase', hmain⟩
    simp at hmain

theorem Handed.main {elapsed : Bool} (handed : Handed s) (h : MainMoved cfg s elapsed t) :
    Handed t := by
  have howned := handed.owned.main h
  cases h with
  | free phase i at_ hfree =>
      refine ⟨howned, handed.single, handed.running, ?_, fun _ _ hmain => by cases hmain⟩
      rintro j ⟨phase', hmain⟩
      have hij : i = j := by
        rcases hmain with hmain | hmain | hmain <;> cases hmain
        rfl
      subst hij
      by_contra hne
      rw [handed.running i (Nat.pos_of_ne_zero hne)] at hfree
      cases hfree
  | setIndex phase i at_ =>
      refine handed.keep howned rfl (flag_setSlot id) ?_ (by simp)
      rintro j ⟨phase', hmain⟩
      have hij : i = j := by
        rcases hmain with hmain | hmain | hmain <;> cases hmain
        rfl
      exact ⟨phase, .inl (hij ▸ at_)⟩
  | setRunning phase i at_ =>
      refine handed.keep howned rfl (flag_setSlot fun _ => rfl) ?_ ?_
      · rintro j ⟨phase', hmain⟩
        have hij : i = j := by
          rcases hmain with hmain | hmain | hmain <;> cases hmain
          rfl
        exact ⟨phase, .inr (.inl (hij ▸ at_))⟩
      · intro phase' j hmain
        cases hmain
        simp [Shared.setSlot]
  | create phase i at_ => exact handed.create at_ howned
  | testTime phase at_ =>
      refine handed.keep howned rfl (fun i hrunning => ?_) ?_ (by simp)
      · cases elapsed <;> exact hrunning
      · rintro j ⟨phase', hmain⟩
        simp at hmain
  | copyServinfo phase i at_ _ | copyDomainName phase i at_ | copyRequestUrl phase i at_ =>
      refine handed.keep howned rfl (flag_setSlot id) ?_ (by simp)
      rintro j ⟨phase', hmain⟩
      simp at hmain
  | endOfTurn phase i at_ _ | busy phase i at_ _ | goOn phase at_
  | stopDownload at_ | stopUpload at_ | sleep at_ | resetStop at_ | speedtestUpload at_ =>
      refine handed.keep howned rfl (fun i h => h) ?_ (by simp)
      rintro j ⟨phase', hmain⟩
      simp at hmain

theorem Handed.step {e : Event} (handed : Handed s) (h : step cfg s e = some t) : Handed t := by
  cases e with
  | main elapsed => exact handed.main (mainStep_moved h)
  | worker k answer =>
      obtain ⟨w, w', sh', hw, hstep, rfl⟩ := step_worker h
      exact handed.worker hw (workerStep_moved hstep)

/-- In every run a slot has one worker at most, with the flag set and the index its own. -/
theorem slots_handed_over (cfg : Config) (as : List Event) (s : State)
    (h : run (step cfg) start as = some s) : OneWorkerEach cfg s := by
  have handed := invariant_run (fun _ _ _ hs hstep => Handed.step hs hstep) Handed.start h
  have loaded := invariant_run (fun _ _ _ hs hstep => Loaded.step hs hstep) (Loaded.start cfg) h
  refine ⟨handed.single, fun i hone => ?_, active_total handed.single loaded.below, ?_⟩
  · have hpos : 0 < active s i := hone ▸ Nat.one_pos
    obtain ⟨w, hw, rfl, _⟩ := active_pos_iff.mp hpos
    exact ⟨handed.running _ hpos, handed.owned.slot w hw⟩
  · intro j k w v hne hj hk hw hv
    have harg : w.arg ≠ v.arg := fun harg => hne
      (position_unique (handed.single w.arg) hj hk (Worker.worksOn_iff.mpr ⟨rfl, hw⟩)
        (Worker.worksOn_iff.mpr ⟨harg.symm, hv⟩))
    refine ⟨harg, fun hwstart hvstart => ?_⟩
    rw [handed.owned.index w (List.mem_of_getElem? hj) hwstart,
      handed.owned.index v (List.mem_of_getElem? hk) hvstart]
    exact harg

/-- One slot, whose first worker has ended and whose second one is at work. -/
theorem slots_handed_over_twice : ∃ s, run (step oneThread) start
    (.main false :: List.replicate 7 (.main false) ++
      [.worker 0 0, .worker 0 (-1), .worker 0 0, .worker 0 0] ++
      List.replicate 10 (.main false)) = some s ∧
      active s 0 = 1 ∧ s.workers.length = 2 ∧ OneWorkerEach oneThread s := by
  have hends : (run (step oneThread) start
    (.main false :: List.replicate 7 (.main false) ++
      [.worker 0 0, .worker 0 (-1), .worker 0 0, .worker 0 0] ++
      List.replicate 10 (.main false))).map (fun s => (active s 0, s.workers.length)) =
      some (1, 2) := by decide +kernel
  obtain ⟨s, hs, hcounts⟩ := Option.map_eq_some_iff.mp hends
  simp only [Prod.mk.injEq] at hcounts
  exact ⟨s, hs, hcounts.1, hcounts.2, slots_handed_over oneThread _ s hs⟩

end LinuxTraining.Speedtest
