import LinuxTraining.SignalSync.Token

/-!
What the processes append. The process that holds the token scans the number
that the other one wrote last, and appends the next one; a lost token stops
both. So the numbers are consecutive whatever happens to the signals.
-/
namespace LinuxTraining.SignalSync
open Execution

def writer (k : Nat) : Process := if k % 2 = 0 then .A else .B

def numbered (n : Int) (k : Nat) : List (Process × Int) :=
  (List.range k).map fun (i : Nat) => (writer i, n + 1 + i)

def lineOf (pids : Process → CInt) (w : Process × CInt) : Line := ⟨pids w.1, w.2⟩

/-- Between reading the last number and appending the next one. -/
def InUpdate (s : State) (p : Process) : Prop :=
  match s.pc p with
  | .getNumberOfLastLine _ _ | .count _ | .writeToFile => True
  | _ => False

theorem writer_succ (k : Nat) : writer (k + 1) = (writer k).other := by
  by_cases h : k % 2 = 0
  · have hsucc : (k + 1) % 2 = 1 := by omega
    simp [writer, h, hsucc, Process.other]
  · have hsucc : (k + 1) % 2 = 0 := by omega
    simp [writer, h, hsucc, Process.other]

theorem numbered_succ (n : Int) (k : Nat) :
    numbered n (k + 1) = numbered n k ++ [(writer k, n + 1 + k)] := by
  simp [numbered, List.range_succ]

def Phase (s : State) (p : Process) : Prop :=
  match s.pc p with
  | .sleep => writer s.written.length = p
  | .getNumberOfLastLine pos last_number =>
      writer s.written.length = p ∧
        scanLines (s.file.drop pos) last_number = getNumberOfLastLine (some s.file)
  | .count last_number =>
      writer s.written.length = p ∧ last_number = getNumberOfLastLine (some s.file)
  | .writeToFile =>
      writer s.written.length = p ∧
        (s.p_counter p).val = getNumberOfLastLine (some s.file) + 1
  | .printf | .kill => writer s.written.length = p.other
  | .callPause | .inPause => True

/-- The file and its lines in a run that began with the lines `prior`. -/
structure Consistent (prior : List Line) (pids : Process → CInt) (s : State) : Prop where
  file : s.file = fileText (prior ++ s.written.map (lineOf pids))
  numbers : s.written.map (fun w => (w.1, w.2.val)) =
    numbered (lastNumber prior) s.written.length
  phase : ∀ p, Phase s p
  pending : ∀ p, s.pending p = true → writer s.written.length = p
  placed : Placed s

variable {prior : List Line} {pids : Process → CInt} {s t : State} {p : Process}

theorem Consistent.start (prior : List Line) (pids : Process → CInt) :
    Consistent prior pids (start (fileText prior)) where
  file := by simp [SignalSync.start]
  numbers := rfl
  phase := by
    intro p
    cases p with
    | A => exact rfl
    | B => exact trivial
  pending := by simp [SignalSync.start]
  placed := (Alive.start _).placed

/-- The last number of the file counts the lines of the run. -/
theorem Consistent.last (h : Consistent prior pids s) :
    getNumberOfLastLine (some s.file) = lastNumber prior + s.written.length := by
  rw [h.file, getNumberOfLastLine_fileText]
  have hnumbers := h.numbers
  cases List.eq_nil_or_concat s.written with
  | inl hnil =>
      simp [hnil]
  | inr hlast =>
      obtain ⟨ws, w, hw⟩ := hlast
      rw [List.concat_eq_append] at hw
      rw [hw, List.map_append, List.map_cons, List.map_nil, ← List.append_assoc,
        lastNumber_append, lineOf]
      simp only [hw, List.length_append, List.length_singleton, List.map_append, List.map_cons,
        List.map_nil, numbered_succ] at hnumbers
      have hlast := (List.append_inj' hnumbers rfl).2
      simp only [List.cons.injEq, Prod.mk.injEq, and_true] at hlast
      rw [hlast.2, List.length_append, List.length_singleton]
      push_cast
      omega

theorem phase_congr (hpc : t.pc p = s.pc p) (hcounter : t.p_counter p = s.p_counter p)
    (hfile : t.file = s.file) (hwritten : t.written = s.written) :
    Phase t p ↔ Phase s p := by
  simp only [Phase, hpc, hcounter, hfile, hwritten]

theorem phase_waiting (h : Waiting s p) : Phase s p := by
  cases h with
  | inl h =>
      simp [Phase, h]
  | inr h =>
      simp [Phase, h]

/-- The phase of the process that moved, and the frame of the other one. -/
theorem phase_update (p : Process) (hother : Phase t p.other) (hmoved : Phase t p) :
    ∀ q, Phase t q := by
  intro q
  cases Process.eq_or_other p q with
  | inl hsame =>
      subst hsame
      exact hmoved
  | inr hsame =>
      subst hsame
      exact hother

theorem Consistent.goto (h : Consistent prior pids s) {c : Pc}
    (hstep : step pids s (.run p) = some t) (hpc : t.pc = Function.update s.pc p c)
    (hcounter : t.p_counter p.other = s.p_counter p.other) (hpending : t.pending = s.pending)
    (hfile : t.file = s.file) (hwritten : t.written = s.written) (hphase : Phase t p) :
    Consistent prior pids t where
  file := by rw [hfile, hwritten, h.file]
  numbers := by rw [hwritten, h.numbers]
  phase := phase_update p ((phase_congr (by simp [hpc]) hcounter hfile hwritten).mpr (h.phase _))
    hphase
  pending := by
    rw [hpending, hwritten]
    exact h.pending
  placed := h.placed.step hstep

theorem Consistent.run (h : Consistent prior pids s)
    (hstep : step pids s (.run p) = some t) : Consistent prior pids t := by
  have hphase := h.phase p
  cases advance_cases hstep with
  | sleep at_ =>
      refine h.goto hstep rfl rfl rfl rfl rfl ?_
      simp only [Phase, at_] at hphase
      simp [Phase, State.goto, hphase, getNumberOfLastLine]
  | endOfFile pos last at_ line =>
      refine h.goto hstep rfl rfl rfl rfl rfl ?_
      simp only [Phase, at_] at hphase
      obtain ⟨hturn, hscan⟩ := hphase
      rw [scanLines_end line] at hscan
      simp [Phase, State.goto, hturn, hscan]
  | readLine pos last at_ line =>
      refine h.goto hstep rfl rfl rfl rfl rfl ?_
      simp only [Phase, at_] at hphase
      obtain ⟨hturn, hscan⟩ := hphase
      have hnext := scanLines_next last line
      rw [List.drop_drop] at hnext
      simp only [Phase, State.goto, Function.update_self]
      exact ⟨hturn, hnext.trans hscan⟩
  | count last at_ fits =>
      refine h.goto hstep rfl (by simp) rfl rfl rfl ?_
      simp only [Phase, at_] at hphase
      simp [Phase, State.goto, hphase]
  | printf at_ =>
      refine h.goto hstep rfl rfl rfl rfl rfl ?_
      simp only [Phase, at_] at hphase
      simp [Phase, State.goto, hphase]
  | callPause at_ =>
      refine h.goto hstep rfl rfl rfl rfl rfl ?_
      simp [Phase, State.goto]
  | kill at_ =>
      obtain ⟨hwaits, hnone⟩ := h.placed.alone (p := p) (by simp [Waiting, at_])
      simp only [Phase, at_] at hphase
      refine ⟨h.file, h.numbers, phase_update p ?_ ?_, ?_, h.placed.step hstep⟩
      · exact phase_waiting ((waiting_congr (by simp [State.goto])).mpr hwaits)
      · simp [Phase, State.goto]
      · intro q hq
        cases Process.eq_or_other p q with
        | inl hsame =>
            subst hsame
            simp [hnone] at hq
        | inr hsame =>
            subst hsame
            exact hphase
  | writeToFile at_ =>
      obtain ⟨hwaits, hnone⟩ := h.placed.alone (p := p) (by simp [Waiting, at_])
      simp only [Phase, at_, h.last] at hphase
      obtain ⟨hturn, hcounter⟩ := hphase
      refine ⟨?_, ?_, phase_update p ?_ ?_, ?_, h.placed.step hstep⟩
      · simp [h.file, ← List.append_assoc, fileText_append, lineOf]
      · have hnumber : (s.p_counter p).val = lastNumber prior + 1 + s.written.length := by
          omega
        simp only [List.map_append, List.map_cons, List.map_nil, List.length_append,
          List.length_singleton, h.numbers, numbered_succ, hturn, hnumber]
      · exact phase_waiting ((waiting_congr (by simp [State.goto])).mpr hwaits)
      · simp [Phase, State.goto, writer_succ, hturn]
      · intro q hq
        simp [State.goto, hnone] at hq

theorem Consistent.deliver (h : Consistent prior pids s)
    (hstep : step pids s (.deliver p) = some t) : Consistent prior pids t := by
  obtain ⟨hpending, ht⟩ := deliver_cases hstep
  have hframe : ∀ q, t.pc q = s.pc q → Phase t q := fun q hpc =>
    (phase_congr hpc (by rw [ht]) (by rw [ht]) (by rw [ht])).mpr (h.phase q)
  subst ht
  refine ⟨h.file, h.numbers, phase_update p ?_ ?_, ?_, h.placed.step hstep⟩
  · by_cases hpause : s.pc p = .inPause
    · exact hframe p.other (by simp [hpause])
    · exact hframe p.other (by simp [hpause])
  · by_cases hpause : s.pc p = .inPause
    · simp only [Phase, hpause, if_true, Function.update_self]
      exact h.pending p hpending
    · exact hframe p (by simp [hpause])
  · intro q hq
    cases Process.eq_or_other p q with
    | inl hsame =>
        subst hsame
        simp at hq
    | inr hsame =>
        subst hsame
        exact h.pending _ (by simpa using hq)

theorem Consistent.step {e : Event} (h : Consistent prior pids s)
    (hstep : SignalSync.step pids s e = some t) : Consistent prior pids t := by
  cases e with
  | run p => exact h.run hstep
  | deliver p => exact h.deliver hstep

theorem inUpdate_works (h : InUpdate s p) : ¬ Waiting s p := by
  rintro (hpc | hpc)
  · simp [InUpdate, hpc] at h
  · simp [InUpdate, hpc] at h

/-- The lines of a run carry the numbers that follow the last one of the file, A and
B take turns, and only one of them is at it at any time. -/
theorem written_numbers_alternate (prior : List Line) (pids : Process → CInt)
    (as : List Event) (s : State)
    (h : run (SignalSync.step pids) (SignalSync.start (fileText prior)) as = some s) :
    s.file = fileText (prior ++ s.written.map (lineOf pids)) ∧
      s.written.map (fun w => (w.1, w.2.val)) =
        (List.range s.written.length).map (fun (i : Nat) => (writer i, lastNumber prior + 1 + i)) ∧
      ¬ (InUpdate s .A ∧ InUpdate s .B) := by
  have hall := invariant_run (fun _ _ _ hs hstep => hs.step hstep)
    (Consistent.start prior pids) h
  refine ⟨hall.file, hall.numbers, ?_⟩
  rintro ⟨hA, hB⟩
  exact inUpdate_works hB (hall.placed.alone (inUpdate_works hA)).1

def threeTurns : List Event :=
  [.run .B] ++ List.replicate 8 (.run .A) ++ [.deliver .B] ++ List.replicate 9 (.run .B) ++
    [.deliver .A] ++ List.replicate 7 (.run .A)

/-- The turns of a run that begins with a file that ends with number 6. -/
theorem written_numbers_alternate_from_six :
    ∃ s, run (SignalSync.step samplePids)
        (SignalSync.start (fileText [⟨samplePids .B, ⟨6, by decide⟩⟩])) threeTurns = some s ∧
      s.written.map (fun w => (w.1, w.2.val)) = [(.A, 7), (.B, 8), (.A, 9)] := by
  have hmap : (run (SignalSync.step samplePids)
      (SignalSync.start (fileText [⟨samplePids .B, ⟨6, by decide⟩⟩])) threeTurns).map
        (fun s => s.written.length) = some 3 := by decide +kernel
  obtain ⟨s, hs, hlength⟩ := Option.map_eq_some_iff.mp hmap
  refine ⟨s, hs, ?_⟩
  rw [(written_numbers_alternate _ samplePids threeTurns s hs).2.1, hlength]
  rfl

end LinuxTraining.SignalSync
