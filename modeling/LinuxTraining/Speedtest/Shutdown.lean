import LinuxTraining.Speedtest.UploadBody
import LinuxTraining.Speedtest.WorkerTargets

/-!
The end of the two phases. Main never waits for a worker: once the time is up it has a bounded
number of steps left, whatever the workers do.
-/
namespace LinuxTraining.Speedtest
open Execution

def turnLength (thread_nums : Nat) : Nat := thread_nums * 7 + 3

def MainPc.left (thread_nums : Nat) : MainPc → Nat
  | .testTime _ => turnLength thread_nums
  | .copyServinfo _ i => (thread_nums - i) * 7 + 2
  | .copyDomainName _ i => (thread_nums - i) * 7 + 1
  | .copyRequestUrl _ i => (thread_nums - i) * 7
  | .testRunning _ i => (thread_nums - i) * 7 - 1
  | .setIndex _ i => (thread_nums - i) * 7 - 2
  | .setRunning _ i => (thread_nums - i) * 7 - 3
  | .create _ i => (thread_nums - i) * 7 - 4
  | .testStop _ => 1
  | .sleep => 3
  | .resetStop => 2
  | .speedtestUpload => 1
  | .returned => 0

def MainPc.lastTurn (thread_nums : Nat) (stop : Bool) : MainPc → Nat
  | .testTime _ | .sleep | .resetStop | .speedtestUpload | .returned => 0
  | _ => bif stop then 0 else turnLength thread_nums

def Phase.after (thread_nums : Nat) : Phase → Nat
  | .download => turnLength thread_nums + 3
  | .upload => 0

def MainPc.after (thread_nums : Nat) : MainPc → Nat
  | .sleep | .resetStop | .speedtestUpload => turnLength thread_nums
  | pc => pc.phase.after thread_nums

def mainLeft (cfg : Config) (s : State) : Nat :=
  s.main.left cfg.thread_nums + s.main.lastTurn cfg.thread_nums s.shared.thread_all_stop +
    s.main.after cfg.thread_nums

def MainPc.testsTime : MainPc → Bool
  | .testTime _ => true
  | _ => false

/-- When main tests the time, it is up. -/
def TimeIsUp (s : State) : Event → Prop
  | .main elapsed => s.main.testsTime = true → elapsed = true
  | .worker _ _ => True

instance (s : State) : (e : Event) → Decidable (TimeIsUp s e)
  | .main elapsed => inferInstanceAs (Decidable (s.main.testsTime = true → elapsed = true))
  | .worker _ _ => inferInstanceAs (Decidable True)

def ofMain (_ : State) : Event → Nat
  | .main _ => 1
  | .worker _ _ => 0

variable {cfg : Config} {s t : State}

theorem setSlot_stop (sh : Shared) (i : Nat) (slot : Slot) :
    (sh.setSlot i slot).thread_all_stop = sh.thread_all_stop := rfl

/-- Main begins another turn only when the flag is not set. -/
theorem goOn_stop {elapsed : Bool} {phase : Phase} (hmain : s.main = .testStop phase)
    (h : mainStep cfg s elapsed = some { s with main := .testTime phase }) :
    s.shared.thread_all_stop = false := by
  cases hstop : s.shared.thread_all_stop with
  | false => rfl
  | true =>
      simp only [mainStep, hmain, hstop, if_true, Option.some.injEq, State.mk.injEq] at h
      cases phase with
      | download => cases h.1
      | upload => cases h.1

theorem mainLeft_main {elapsed : Bool} (loaded : Loaded cfg s)
    (late : TimeIsUp s (.main elapsed)) (h : mainStep cfg s elapsed = some t) :
    1 + mainLeft cfg t ≤ mainLeft cfg s := by
  have hfilled := loaded.filled
  unfold Filled at hfilled
  unfold mainLeft
  cases mainStep_moved h with
  | testTime phase at_ =>
      have hup : elapsed = true := late (by rw [at_]; rfl)
      simp only [at_, hup, if_true, MainPc.left, MainPc.lastTurn, MainPc.after, MainPc.phase,
        turnLength, cond_true]
      omega
  | copyServinfo phase i at_ _ | endOfTurn phase i at_ _ =>
      simp only [at_, MainPc.left, MainPc.lastTurn, MainPc.after, MainPc.phase, setSlot_stop]
      omega
  | copyDomainName phase i at_ | copyRequestUrl phase i at_ | busy phase i at_ _
  | free phase i at_ _ | setIndex phase i at_ | setRunning phase i at_ | create phase i at_ =>
      simp only [at_] at hfilled
      simp only [at_, MainPc.left, MainPc.lastTurn, MainPc.after, MainPc.phase, setSlot_stop]
      omega
  | goOn phase at_ =>
      have hstop := goOn_stop at_ h
      simp only [at_, hstop, MainPc.left, MainPc.lastTurn, MainPc.after, MainPc.phase, cond_false]
      omega
  | stopDownload at_ =>
      simp only [at_, MainPc.left, MainPc.lastTurn, MainPc.after, MainPc.phase, Phase.after]
      omega
  | stopUpload at_ =>
      simp only [at_, MainPc.left, MainPc.lastTurn, MainPc.after, MainPc.phase, Phase.after]
      omega
  | sleep at_ | resetStop at_ =>
      simp only [at_, MainPc.left, MainPc.lastTurn, MainPc.after]
      omega
  | speedtestUpload at_ =>
      simp only [at_, MainPc.left, MainPc.lastTurn, MainPc.after, MainPc.phase, Phase.after]
      omega

theorem mainLeft_step {e : Event} (loaded : Loaded cfg s) (late : TimeIsUp s e)
    (h : step cfg s e = some t) : ofMain s e + mainLeft cfg t ≤ mainLeft cfg s := by
  cases e with
  | main elapsed => exact mainLeft_main loaded late h
  | worker k answer =>
      obtain ⟨w, w', sh', hw, hstep, rfl⟩ := step_worker h
      have hstop := (workerStep_moved hstep).stop
      simp only [ofMain, mainLeft, hstop, Nat.zero_add, Nat.le_refl]

theorem mainLeft_le (cfg : Config) (s : State) : mainLeft cfg s ≤ cfg.thread_nums * 21 + 11 := by
  have hsub : ∀ i, (cfg.thread_nums - i) * 7 ≤ cfg.thread_nums * 7 := fun i =>
    Nat.mul_le_mul_right 7 (Nat.sub_le _ _)
  have hturn : (bif s.shared.thread_all_stop then 0 else turnLength cfg.thread_nums) ≤
      turnLength cfg.thread_nums := by cases s.shared.thread_all_stop <;> simp
  have hafter : ∀ phase : Phase, phase.after cfg.thread_nums ≤ turnLength cfg.thread_nums + 3 := by
    intro phase
    cases phase with
    | download => exact Nat.le_refl _
    | upload => exact Nat.zero_le _
  unfold mainLeft
  unfold turnLength at hturn hafter
  cases hmain : s.main with
  | testTime phase =>
      have := hafter phase
      simp only [MainPc.left, MainPc.lastTurn, MainPc.after, MainPc.phase, turnLength]
      omega
  | copyServinfo phase i | copyDomainName phase i | copyRequestUrl phase i
  | testRunning phase i | setIndex phase i | setRunning phase i | create phase i =>
      have := hafter phase
      have := hsub i
      simp only [MainPc.left, MainPc.lastTurn, MainPc.after, MainPc.phase, turnLength]
      omega
  | testStop phase =>
      have := hafter phase
      simp only [MainPc.left, MainPc.lastTurn, MainPc.after, MainPc.phase, turnLength]
      omega
  | sleep | resetStop | speedtestUpload | returned =>
      simp only [MainPc.left, MainPc.lastTurn, MainPc.after, MainPc.phase, Phase.after, turnLength]
      omega

/-- Main can always take its next step. -/
theorem main_moves (hmain : s.main ≠ .returned) (elapsed : Bool) :
    ∃ t, step cfg s (.main elapsed) = some t := by
  apply Option.isSome_iff_exists.mp
  simp only [step, mainStep]
  cases hpc : s.main with
  | returned => exact absurd hpc hmain
  | copyServinfo phase i => by_cases hi : i < cfg.thread_nums <;> simp [hi]
  | testRunning phase i => cases hrunning : (s.shared.thread i).running <;> simp [hrunning]
  | testStop phase => cases s.shared.thread_all_stop <;> simp
  | _ => rfl

/-- From any state of any run on, when the time is up at each of main's tests, main takes a
bounded number of steps, whatever the workers do, and it can take the next one at any moment
until it has returned. -/
theorem main_returns_in_time (cfg : Config) (as bs : List Event) (s t : State)
    (hs : run (step cfg) start as = some s) (late : Along (step cfg) TimeIsUp s bs)
    (ht : run (step cfg) s bs = some t) :
    tally (step cfg) ofMain s bs ≤ cfg.thread_nums * 21 + 11 ∧
      (t.main = .returned ∨ ∀ elapsed, ∃ u, step cfg t (.main elapsed) = some u) := by
  have loaded := invariant_run (fun _ _ _ hs hstep => Loaded.step hs hstep) (Loaded.start cfg) hs
  have hpays : tally (step cfg) ofMain s bs + mainLeft cfg t ≤ mainLeft cfg s := by
    refine tally_le ?_ ?_ loaded late ht
    · exact fun _ _ _ hs _ hstep => Loaded.step hs hstep
    · exact fun _ _ _ hs hlate hstep => mainLeft_step hs hlate hstep
  have hle := mainLeft_le cfg s
  refine ⟨by omega, ?_⟩
  by_cases hmain : t.main = .returned
  · exact .inl hmain
  · exact .inr (main_moves hmain)

def leftConnecting : List Event :=
  shortDownload ++ [.worker 0 0, .worker 0 3] ++ toUpload ++
    .main true :: List.replicate 6 (.main false)

theorem main_returns_in_time_alone :
    ∃ t, run (step oneThread) start leftConnecting = some t ∧ t.main = .returned ∧
      tally (step oneThread) ofMain start leftConnecting ≤ 32 := by
  have hends : (run (step oneThread) start leftConnecting).map State.main = some .returned := by
    decide +kernel
  obtain ⟨t, ht, hmain⟩ := Option.map_eq_some_iff.mp hends
  have hall := main_returns_in_time oneThread [] leftConnecting start t rfl (by decide +kernel) ht
  exact ⟨t, ht, hmain, hall.1⟩

end LinuxTraining.Speedtest
