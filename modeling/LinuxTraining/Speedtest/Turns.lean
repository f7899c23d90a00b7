import LinuxTraining.Speedtest.Phases

/-!
Stretches of a run in which only main moves: it fills a slot and creates its worker, passes by a
slot that is in use, comes to the end of a turn and from there to the upload phase.
-/
namespace LinuxTraining.Speedtest
open Execution

variable {cfg : Config} {s : State} {phase : Phase} {i : Nat}

/-- What becomes of a state in which main fills a free slot and creates its worker. -/
def State.created (cfg : Config) (s : State) (phase : Phase) (i : Nat) : State where
  main := .copyServinfo phase (i + 1)
  workers := s.workers ++ [.created phase i]
  shared := s.shared.setSlot i ⟨i, true, cfg.nearest_server.domain_name,
    requestUrl phase cfg.nearest_server.url, cfg.nearest_server.servinfo⟩

theorem run_create (hmain : s.main = .copyServinfo phase i) (hi : i < cfg.thread_nums)
    (hfree : (s.shared.thread i).running = false) :
    run (step cfg) s (List.replicate 7 (.main false)) = some (s.created cfg phase i) := by
  simp [run, step, mainStep, hmain, hi, hfree, State.created, Shared.setSlot, List.replicate]

/-- Main passes by a slot whose worker is active. -/
theorem run_busy (hmain : s.main = .copyServinfo phase i) (hi : i < cfg.thread_nums)
    (hbusy : (s.shared.thread i).running = true) :
    run (step cfg) s (List.replicate 4 (.main false)) = some
      { main := .copyServinfo phase (i + 1)
        workers := s.workers
        shared := s.shared.setSlot i { s.shared.thread i with
          domain_name := cfg.nearest_server.domain_name
          request_url := requestUrl phase cfg.nearest_server.url
          servinfo := cfg.nearest_server.servinfo } } := by
  simp [run, step, mainStep, hmain, hi, hbusy, Shared.setSlot, List.replicate]

theorem run_turn (cfg : Config) (hmain : s.main = .copyServinfo phase i) (hpos : 0 < i) :
    ∃ as t, run (step cfg) s as = some t ∧ t.main = .testStop phase ∧
      t.shared.thread 0 = s.shared.thread 0 ∧
      t.shared.thread_all_stop = s.shared.thread_all_stop ∧ s.workers <+: t.workers := by
  induction hn : cfg.thread_nums - i generalizing s i with
  | zero =>
      have hdone : ¬ i < cfg.thread_nums := by omega
      refine ⟨[.main false], { s with main := .testStop phase }, ?_, rfl, rfl, rfl,
        List.prefix_rfl⟩
      simp [run, step, mainStep, hmain, hdone]
  | succ n ih =>
      have hi : i < cfg.thread_nums := by omega
      have hzero : (0 : Nat) ≠ i := by omega
      cases hrunning : (s.shared.thread i).running with
      | false =>
          have hfirst := run_create hmain hi hrunning
          obtain ⟨as, t, ht, hstop, hslot, hflag, hkept⟩ := ih (s := s.created cfg phase i) rfl
            (Nat.succ_pos i) (by omega)
          exact ⟨_, t, run_append.mpr ⟨_, hfirst, ht⟩, hstop,
            by simpa [State.created, Shared.setSlot, hzero] using hslot, hflag,
            (List.prefix_append _ _).trans hkept⟩
      | true =>
          have hfirst := run_busy hmain hi hrunning
          obtain ⟨as, t, ht, hstop, hslot, hflag, hkept⟩ := ih
            (s := { main := .copyServinfo phase (i + 1), .. }) rfl (Nat.succ_pos i) (by omega)
          exact ⟨_, t, run_append.mpr ⟨_, hfirst, ht⟩, hstop,
            by simpa [Shared.setSlot, hzero] using hslot, hflag, hkept⟩

def shortTurn : State :=
  { start with
    main := .copyServinfo .download 0
    shared := { start.shared with thread_all_stop := true } }

theorem run_shortTurn : run (step cfg) start [.main true] = some shortTurn := rfl

/-- Nothing holds main up on its way from the download phase to the upload phase. -/
theorem run_change (hmain : s.main = .testStop .download)
    (hflag : s.shared.thread_all_stop = true) :
    run (step cfg) s (List.replicate 4 (.main false)) = some
      { s with
        main := .testTime .upload
        shared := { s.shared with thread_all_stop := false } } := by
  simp [run, step, mainStep, hmain, hflag, List.replicate]

end LinuxTraining.Speedtest
