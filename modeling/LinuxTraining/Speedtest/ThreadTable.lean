import LinuxTraining.Speedtest.CommandLine
import LinuxTraining.Speedtest.WorkerTargets

/-!
The table `thread` has `THREAD_NUMBER` slots, and the number of threads comes from the command
line. Which slots main and the workers access, and when all of them are in the table.
-/
namespace LinuxTraining.Speedtest
open Execution GetOpt Stdio

def threadNumber : Nat := 8

def MainPc.touched (thread_nums : Nat) : MainPc → Option Nat
  | .copyServinfo _ i => if i < thread_nums then some i else none
  | .copyDomainName _ i | .copyRequestUrl _ i | .testRunning _ i | .setIndex _ i
  | .setRunning _ i | .create _ i => some i
  | _ => none

/-- The slot that a worker reads or writes next. The first step reads through `t_arg`. -/
def Worker.touched (w : Worker) : Option Nat :=
  match w.pc with
  | .start => some w.arg
  | .socket | .connect | .requestUrl | .domainName | .clearRunning => some w.i
  | _ => none

def touched (cfg : Config) (s : State) : Event → Option Nat
  | .main _ => s.main.touched cfg.thread_nums
  | .worker k _ => s.workers[k]?.bind Worker.touched

/-- No run of the two phases goes beyond the end of the table. -/
def InTable (cfg : Config) : Prop :=
  ∀ as s e t, run (step cfg) start as = some s → step cfg s e = some t →
    ∀ i ∈ touched cfg s e, i < threadNumber

variable {cfg : Config} {s : State} {i n : Nat}

theorem touched_below {e : Event} (loaded : Loaded cfg s) (h : i ∈ touched cfg s e) :
    i < cfg.thread_nums := by
  cases e with
  | main elapsed =>
      have hfilled := loaded.filled
      unfold Filled at hfilled
      simp only [touched, MainPc.touched] at h
      cases hmain : s.main with
      | copyServinfo phase j =>
          simp only [hmain] at h
          split at h
          · rename_i hj
            cases h
            exact hj
          · cases h
      | copyDomainName phase j | copyRequestUrl phase j | testRunning phase j
      | setIndex phase j | setRunning phase j | create phase j =>
          simp only [hmain] at h hfilled
          cases h
          exact hfilled.1
      | _ =>
          simp only [hmain] at h
          cases h
  | worker k answer =>
      simp only [touched, Option.mem_def, Option.bind_eq_some_iff] at h
      obtain ⟨w, hw, hi⟩ := h
      have hmem := List.mem_of_getElem? hw
      have hbelow := loaded.below w hmem
      unfold Worker.touched at hi
      cases hpc : w.pc with
      | start =>
          simp only [hpc] at hi
          cases hi
          exact hbelow
      | socket | connect | requestUrl | domainName | clearRunning =>
          simp only [hpc] at hi
          cases hi
          rw [loaded.owned.index w hmem (by simp [hpc])]
          exact hbelow
      | _ =>
          simp only [hpc] at hi
          cases hi

/-- Main can fill the slots in order, as long as there are threads to create. -/
theorem run_fill (h : n ≤ cfg.thread_nums) :
    ∃ as s, run (step cfg) start as = some s ∧ s.main = .copyServinfo .download n ∧
      ∀ i, n ≤ i → (s.shared.thread i).running = false := by
  induction n with
  | zero => exact ⟨[.main true], shortTurn, run_shortTurn, rfl, fun _ _ => rfl⟩
  | succ n ih =>
      obtain ⟨as, s, hs, hmain, hfree⟩ := ih (Nat.le_of_succ_le h)
      have hcreate := run_create hmain h (hfree n le_rfl)
      refine ⟨_, _, run_append.mpr ⟨s, hs, hcreate⟩, rfl, fun i hi => ?_⟩
      have hne : i ≠ n := by omega
      simpa [State.created, Shared.setSlot, hne] using hfree i (by omega)

theorem inTable_iff (cfg : Config) : InTable cfg ↔ cfg.thread_nums ≤ threadNumber := by
  constructor
  · intro hin
    by_contra hmore
    have hmore : threadNumber < cfg.thread_nums := Nat.lt_of_not_le hmore
    obtain ⟨as, s, hs, hmain, _⟩ := run_fill (Nat.le_of_lt hmore)
    obtain ⟨t, ht⟩ : ∃ t, step cfg s (.main false) = some t := by
      simp [step, mainStep, hmain, hmore]
    have hslot : threadNumber ∈ touched cfg s (.main false) := by
      simp [touched, MainPc.touched, hmain, hmore]
    exact absurd (hin as s _ t hs ht _ hslot) (Nat.lt_irrefl _)
  · intro hfew as s e t hs _ i hi
    have hloaded := invariant_run (fun _ _ _ hs hstep => Loaded.step hs hstep)
      (Loaded.start cfg) hs
    exact Nat.lt_of_lt_of_le (touched_below hloaded hi) hfew

/-- `run_proc` drives no thread when the number on the command line is negative. -/
theorem accesses_in_table_iff (servers : Servers) (outcomes : Outcomes) (args : List Text) :
    InTable (runProc servers outcomes (parseCommandLine .default args).2.num_threads.toNat) ↔
      ∀ optarg ∈ (argumentsOf 't' (getopt optstring args)).getLast?,
        atoi optarg ≤ threadNumber := by
  rw [inTable_iff, parse_command_line_settled]
  simp only [runProc, settled, Settings.default]
  cases (argumentsOf 't' (getopt optstring args)).getLast? with
  | none => simp [threadNumber]
  | some optarg => simp [threadNumber]

end LinuxTraining.Speedtest
