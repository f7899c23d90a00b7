import LinuxTraining.SignalSync.Processes

/-!
Who may go on. The right to do so moves between the processes as a token: it is
held by the one that is not waiting, or it is the pending signal. A signal that
does not find its receiver in `pause` takes the token with it, and both
processes then end up waiting for ever.
-/
namespace LinuxTraining.SignalSync
open Execution

/-- The right to go on with the loop. -/
inductive Token where
  | held (p : Process)
  | sent (p : Process)
  | lost

/-- The token is held by the one process that is not waiting, or is the pending
signal. -/
def Token.At (s : State) : Token → Prop
  | .held p => ¬ Waiting s p ∧ Waiting s p.other ∧ ∀ q, s.pending q = false
  | .sent p => (∀ q, Waiting s q) ∧ s.pending p = true ∧ s.pending p.other = false
  | .lost => (∀ q, Waiting s q) ∧ ∀ q, s.pending q = false

def Alive (s : State) : Prop := (∃ p, (Token.held p).At s) ∨ ∃ p, (Token.sent p).At s

variable {pids : Process → CInt} {s t : State} {p : Process}

theorem Alive.start (file : List Char) : Alive (start file) := by
  refine .inl ⟨.A, ?_, .inl rfl, fun _ => rfl⟩
  simp [Waiting, SignalSync.start]

inductive Moves (s t : State) (p : Process) : Prop where
  | works (before : ¬ Waiting s p) (after : ¬ Waiting t p) (pending : t.pending = s.pending)
  | signals (before : ¬ Waiting s p) (after : Waiting t p)
      (pending : t.pending = Function.update s.pending p.other true)
  | pauses (before : Waiting s p) (after : Waiting t p) (pending : t.pending = s.pending)

theorem Advances.moves (h : Advances pids s p t) : Moves s t p := by
  cases h with
  | callPause at_ => exact .pauses (.inl at_) ((waiting_goto _).mpr (.inr rfl)) rfl
  | kill at_ => exact .signals (by simp [Waiting, at_]) ((waiting_goto _).mpr (.inl rfl)) rfl
  | endOfFile _ _ at_ _ | readLine _ _ at_ _ | count _ at_ _ | sleep at_ | printf at_
  | writeToFile at_ =>
      exact .works (by simp [Waiting, at_]) (by simp [Waiting, State.goto]) rfl

theorem Alive.run (alive : Alive s) (h : Advances pids s p t) : Alive t := by
  have hother := waiting_congr (h.other p.other_ne)
  cases alive with
  | inl hrunner =>
      obtain ⟨r, hactive, hwaits, hnone⟩ := hrunner
      cases Process.eq_or_other r p with
      | inl hsame =>
          subst hsame
          cases h.moves with
          | works before after pending =>
              exact .inl ⟨p, after, hother.mpr hwaits, fun q => by rw [pending, hnone]⟩
          | signals before after pending =>
              refine .inr ⟨p.other, ?_, by simp [pending], by simp [pending, hnone]⟩
              intro q
              cases Process.eq_or_other p q with
              | inl hsame =>
                  subst hsame
                  exact after
              | inr hsame =>
                  subst hsame
                  exact hother.mpr hwaits
          | pauses before => exact absurd before hactive
      | inr hsame =>
          subst hsame
          rw [Process.other_other] at hother
          cases h.moves with
          | works before => exact absurd hwaits before
          | signals before => exact absurd hwaits before
          | pauses before after pending =>
              exact .inl ⟨r, by rwa [hother], after, fun q => by rw [pending, hnone]⟩
  | inr hwaiting =>
      obtain ⟨r, hall, hsent, hnone⟩ := hwaiting
      cases h.moves with
      | works before => exact absurd (hall p) before
      | signals before => exact absurd (hall p) before
      | pauses before after pending =>
          refine .inr ⟨r, ?_, by rw [pending, hsent], by rw [pending, hnone]⟩
          intro q
          cases Process.eq_or_other p q with
          | inl hsame =>
              subst hsame
              exact after
          | inr hsame =>
              subst hsame
              exact hother.mpr (hall _)

theorem Alive.sent (alive : Alive s) (hpending : s.pending p = true) : (Token.sent p).At s := by
  cases alive with
  | inl hrunner =>
      obtain ⟨r, _, _, hnone⟩ := hrunner
      rw [hnone] at hpending
      cases hpending
  | inr hwaiting =>
      obtain ⟨r, hall, hsent, hnone⟩ := hwaiting
      cases Process.eq_or_other r p with
      | inl hsame =>
          subst hsame
          exact ⟨hall, hsent, hnone⟩
      | inr hsame =>
          subst hsame
          rw [hnone] at hpending
          cases hpending

/-- No signal is left when the one on its way has come. -/
theorem pending_delivered (hnone : s.pending p.other = false) (q : Process) :
    Function.update s.pending p false q = false := by
  cases Process.eq_or_other p q with
  | inl hsame =>
      subst hsame
      simp
  | inr hsame =>
      subst hsame
      simpa using hnone

/-- A signal that finds its receiver in `pause` hands the token over. -/
theorem Alive.received (alive : Alive s) (h : s.deliver p = some t)
    (hpause : s.pc p = .inPause) : Alive t := by
  obtain ⟨hpending, rfl⟩ := deliver_cases h
  obtain ⟨hall, _, hnone⟩ := alive.sent hpending
  refine .inl ⟨p, by simp [Waiting, hpause], ?_, pending_delivered hnone⟩
  have hother := hall p.other
  simpa [Waiting, hpause] using hother

theorem Alive.missed (alive : Alive s) (h : s.deliver p = some t)
    (hpause : s.pc p ≠ .inPause) : Token.lost.At t := by
  obtain ⟨hpending, rfl⟩ := deliver_cases h
  obtain ⟨hall, _, hnone⟩ := alive.sent hpending
  refine ⟨fun q => ?_, pending_delivered hnone⟩
  simpa [Waiting, hpause] using hall q

theorem lost_step {e : Event} (lost : Token.lost.At s) (h : step pids s e = some t) :
    Token.lost.At t := by
  obtain ⟨hall, hnone⟩ := lost
  cases e with
  | run p =>
      have hadvance := advance_cases h
      cases hadvance.moves with
      | works before => exact absurd (hall p) before
      | signals before => exact absurd (hall p) before
      | pauses before after pending =>
          refine ⟨?_, fun q => by rw [pending, hnone]⟩
          intro q
          cases Process.eq_or_other p q with
          | inl hsame =>
              subst hsame
              exact after
          | inr hsame =>
              subst hsame
              exact (waiting_congr (hadvance.other p.other_ne)).mpr (hall _)
  | deliver p =>
      obtain ⟨hpending, _⟩ := deliver_cases h
      rw [hnone] at hpending
      cases hpending

/-- The token of a run is lost exactly by the first signal that comes too early. -/
theorem run_alive_or_lost {file : List Char} {as : List Event}
    (h : run (step pids) (start file) as = some s) :
    (Along (step pids) ReceivedInPause (start file) as ∧ Alive s) ∨
      (¬ Along (step pids) ReceivedInPause (start file) as ∧ Token.lost.At s) := by
  refine good_iff_along ?_ ?_ (fun _ _ _ => lost_step) (Alive.start file) h
  · intro s e t alive received hstep
    cases e with
    | run p => exact alive.run (advance_cases hstep)
    | deliver p => exact alive.received hstep received
  · intro s e t alive missed hstep
    cases e with
    | run p => exact absurd trivial missed
    | deliver p => exact alive.missed hstep missed

def Placed (s : State) : Prop := ∃ token : Token, token.At s

theorem Alive.placed (alive : Alive s) : Placed s := by
  cases alive with
  | inl hrunner =>
      obtain ⟨r, h⟩ := hrunner
      exact ⟨_, h⟩
  | inr hwaiting =>
      obtain ⟨r, h⟩ := hwaiting
      exact ⟨_, h⟩

theorem Placed.step {e : Event} (placed : Placed s) (h : step pids s e = some t) :
    Placed t := by
  have halive : Alive s ∨ Token.lost.At s := by
    obtain ⟨token, hat⟩ := placed
    cases token with
    | held r => exact .inl (.inl ⟨r, hat⟩)
    | sent r => exact .inl (.inr ⟨r, hat⟩)
    | lost => exact .inr hat
  cases halive with
  | inl alive =>
      cases e with
      | run p => exact (alive.run (advance_cases h)).placed
      | deliver p =>
          by_cases hpause : s.pc p = .inPause
          · exact (alive.received h hpause).placed
          · exact ⟨_, alive.missed h hpause⟩
  | inr lost =>
      exact ⟨_, lost_step lost h⟩

/-- While one process works, the other one waits and no signal is pending. -/
theorem Placed.alone (placed : Placed s) (hworks : ¬ Waiting s p) :
    Waiting s p.other ∧ ∀ q, s.pending q = false := by
  obtain ⟨token, hat⟩ := placed
  cases token with
  | held r =>
      cases Process.eq_or_other r p with
      | inl hsame =>
          subst hsame
          exact hat.2
      | inr hsame =>
          subst hsame
          exact absurd hat.2.1 hworks
  | sent r => exact absurd (hat.1 p) hworks
  | lost => exact absurd (hat.1 p) hworks

theorem Alive.not_deadlocked (alive : Alive s) : ¬ Deadlocked s := by
  intro dead
  cases alive with
  | inl hrunner =>
      obtain ⟨r, hactive, _⟩ := hrunner
      exact hactive (.inr (dead r).1)
  | inr hwaiting =>
      obtain ⟨r, _, hsent, _⟩ := hwaiting
      rw [(dead r).2] at hsent
      cases hsent

/-- A waiting process reaches `pause` by itself. -/
theorem run_to_pause (pids : Process → CInt) (hwaits : Waiting s p) :
    ∃ as t, (∀ e ∈ as, e = .run p) ∧ run (step pids) s as = some t ∧ t.pc p = .inPause ∧
      (∀ q, q ≠ p → t.pc q = s.pc q) ∧ t.pending = s.pending := by
  cases hwaits with
  | inl hpc =>
      refine ⟨[.run p], s.goto p .inPause, by simp, ?_, by simp [State.goto],
        fun q hq => by simp [State.goto, hq], rfl⟩
      simp [run, step, State.advance, hpc]
  | inr hpc =>
      exact ⟨[], s, by simp, rfl, hpc, fun _ _ => rfl, rfl⟩

/-- Without the token the processes walk into the deadlock. -/
theorem lost_deadlocks (pids : Process → CInt) (lost : Token.lost.At s) :
    ∃ as t, (∀ e ∈ as, ∃ p, e = .run p) ∧ run (step pids) s as = some t ∧ Deadlocked t := by
  obtain ⟨hall, hnone⟩ := lost
  obtain ⟨as, m, has, hm, hA, hframe, hpending⟩ := run_to_pause pids (hall .A)
  have hB : Waiting m .B := (waiting_congr (hframe .B (by decide))).mpr (hall .B)
  obtain ⟨bs, t, hbs, ht, hBt, hframe', hpending'⟩ := run_to_pause pids hB
  refine ⟨as ++ bs, t, ?_, run_append.mpr ⟨m, hm, ht⟩, ?_⟩
  · intro e he
    cases List.mem_append.mp he with
    | inl he =>
        exact ⟨.A, has e he⟩
    | inr he =>
        exact ⟨.B, hbs e he⟩
  · intro p
    rw [hpending', hpending]
    cases p with
    | A => exact ⟨by rw [hframe' .A (by decide), hA], hnone _⟩
    | B => exact ⟨hBt, hnone _⟩

theorem along_runs {as : List Event} (h : ∀ e ∈ as, ∃ p, e = Event.run p) :
    Along (step pids) ReceivedInPause s as := by
  induction as generalizing s with
  | nil => trivial
  | cons e as ih =>
      obtain ⟨p, rfl⟩ := h e List.mem_cons_self
      refine ⟨trivial, ?_⟩
      cases hstep : step pids s (.run p) with
      | none => trivial
      | some t => exact ih fun e he => h e (List.mem_cons_of_mem _ he)

/-- The processes stay clear of the deadlock, with no further signal needed to get
there, exactly in the runs whose signals all find their receiver in `pause`. -/
theorem deadlock_free_iff_received (pids : Process → CInt) (file : List Char)
    (as : List Event) (s : State) (h : run (step pids) (start file) as = some s) :
    Along (step pids) ReceivedInPause (start file) as ↔
      ∀ bs t, (∀ e ∈ bs, ∃ p, e = Event.run p) → run (step pids) s bs = some t →
        ¬ Deadlocked t := by
  constructor
  · intro received bs t hbs ht
    have hall := (along_append h).mpr ⟨received, along_runs hbs⟩
    cases run_alive_or_lost (run_append.mpr ⟨s, h, ht⟩) with
    | inl hgood =>
        obtain ⟨_, alive⟩ := hgood
        exact alive.not_deadlocked
    | inr hmissing =>
        obtain ⟨missed, _⟩ := hmissing
        exact absurd hall missed
  · intro clear
    cases run_alive_or_lost h with
    | inl hreceives =>
        obtain ⟨received, _⟩ := hreceives
        exact received
    | inr hloses =>
        obtain ⟨_, lost⟩ := hloses
        obtain ⟨bs, t, hbs, ht, dead⟩ := lost_deadlocks pids lost
        exact absurd dead (clear bs t hbs ht)

def samplePids : Process → CInt
  | .A => ⟨100, by decide⟩
  | .B => ⟨101, by decide⟩

def firstTurn : List Event := List.replicate 6 (.run .A)

theorem first_turn_received :
    ∃ s, run (step samplePids) (start [])
        (.run .B :: firstTurn ++ [.run .A, .deliver .B]) = some s ∧
      ∀ bs t, (∀ e ∈ bs, ∃ p, e = Event.run p) →
        run (step samplePids) s bs = some t → ¬ Deadlocked t := by
  have hsome : (run (step samplePids) (start [])
      (.run .B :: firstTurn ++ [.run .A, .deliver .B])).isSome := by decide +kernel
  obtain ⟨s, hs⟩ := Option.isSome_iff_exists.mp hsome
  refine ⟨s, hs, (deadlock_free_iff_received _ [] _ s hs).mp ?_⟩
  decide +kernel

/-- B receives the first signal before it calls `pause`. -/
theorem first_signal_lost :
    ∃ s, run (step samplePids) (start [])
        (firstTurn ++ [.deliver .B, .run .B, .run .A]) = some s ∧ Deadlocked s := by
  have hends : (run (step samplePids) (start [])
      (firstTurn ++ [.deliver .B, .run .B, .run .A])).map
        (fun s => (s.pc .A, s.pc .B, s.pending .A, s.pending .B)) =
      some (.inPause, .inPause, false, false) := by decide +kernel
  obtain ⟨s, hs, hends⟩ := Option.map_eq_some_iff.mp hends
  simp only [Prod.mk.injEq] at hends
  refine ⟨s, hs, ?_⟩
  intro p
  cases p with
  | A => exact ⟨hends.1, hends.2.2.1⟩
  | B => exact ⟨hends.2.1, hends.2.2.2⟩

end LinuxTraining.SignalSync
