import LinuxTraining.Library.Execution
import LinuxTraining.SignalSync.OutputFile
import Mathlib.Logic.Function.Basic

/-!
The two processes of `parent_process` after the fork: A is the parent, B the
child. Both go round the same loop, A from the sleep and B from the pause. A
standard signal is pending or not: a second `kill` before the delivery adds
nothing, and a delivery outside `pause` runs the empty handler.
-/
namespace LinuxTraining.SignalSync
open Stdio

inductive Process where
  | A
  | B
  deriving DecidableEq

def Process.other : Process → Process
  | .A => .B
  | .B => .A

inductive Pc where
  | sleep
  | getNumberOfLastLine (pos : Nat) (last_number : Int)
  | count (last_number : Int)
  | writeToFile
  | printf
  | kill
  | callPause
  | inPause
  deriving DecidableEq

/-- `written` lists who appended which number; no process reads it. -/
structure State where
  pc : Process → Pc
  p_counter : Process → CInt
  pending : Process → Bool
  file : List Char
  written : List (Process × CInt)

def start (file : List Char) : State where
  pc
    | .A => .sleep
    | .B => .callPause
  p_counter _ := ⟨0, by decide⟩
  pending _ := false
  file := file
  written := []

inductive Event where
  | run (p : Process)
  | deliver (p : Process)
  deriving DecidableEq

namespace State

def goto (s : State) (p : Process) (c : Pc) : State :=
  { s with pc := Function.update s.pc p c }

/-- The next step of a process. The file is read a line at a time, and its line
reaches the file when `write_to_file` closes it. `p_counter++` has no meaning at
`INT_MAX`. -/
def advance (pids : Process → CInt) (s : State) (p : Process) : Option State :=
  match s.pc p with
  | .sleep => some (s.goto p (.getNumberOfLastLine 0 0))
  | .getNumberOfLastLine pos last_number =>
      let line := (fgets (maxSize - 1) (s.file.drop pos)).1
      if line = [] then some (s.goto p (.count last_number))
      else some (s.goto p
        (.getNumberOfLastLine (pos + line.length) (scanLine line last_number)))
  | .count last_number =>
      if h : FitsInt (last_number + 1) then
        some { s.goto p .writeToFile with
          p_counter := Function.update s.p_counter p ⟨last_number + 1, h⟩ }
      else none
  | .writeToFile =>
      some { s.goto p .printf with
        file := s.file ++ SignalSync.writeToFile (pids p) (s.p_counter p)
        written := s.written ++ [(p, s.p_counter p)] }
  | .printf => some (s.goto p .kill)
  | .kill =>
      some { s.goto p .callPause with pending := Function.update s.pending p.other true }
  | .callPause => some (s.goto p .inPause)
  | .inPause => none

/-- `SIGUSR1` reaches `p`: a pause ends, and anywhere else nothing happens. -/
def deliver (s : State) (p : Process) : Option State :=
  if s.pending p = true then
    some { s with
      pending := Function.update s.pending p false
      pc := if s.pc p = .inPause then Function.update s.pc p .sleep else s.pc }
  else none

end State

def step (pids : Process → CInt) (s : State) : Event → Option State
  | .run p => s.advance pids p
  | .deliver p => s.deliver p

/-- Between the end of a turn and the wake-up for the next one. -/
def Waiting (s : State) (p : Process) : Prop := s.pc p = .callPause ∨ s.pc p = .inPause

/-- Both processes are in `pause` and no signal is under way. -/
def Deadlocked (s : State) : Prop := ∀ p, s.pc p = .inPause ∧ s.pending p = false

/-- A signal that is delivered finds its receiver in `pause`. -/
def ReceivedInPause (s : State) : Event → Prop
  | .run _ => True
  | .deliver p => s.pc p = .inPause

instance (s : State) (e : Event) : Decidable (ReceivedInPause s e) := by
  cases e <;> unfold ReceivedInPause <;> infer_instance

theorem Process.eq_or_other (p q : Process) : q = p ∨ q = p.other := by
  cases p <;> cases q <;> simp [Process.other]

@[simp] theorem Process.other_ne (p : Process) : p.other ≠ p := by
  cases p <;> simp [Process.other]

@[simp] theorem Process.ne_other (p : Process) : p ≠ p.other := p.other_ne.symm

@[simp] theorem Process.other_other (p : Process) : p.other.other = p := by
  cases p <;> rfl

theorem waiting_congr {s t : State} {p : Process} (h : t.pc p = s.pc p) :
    Waiting t p ↔ Waiting s p := by
  simp only [Waiting, h]

variable {pids : Process → CInt} {s t : State} {p : Process}

def State.nextLine (s : State) (pos : Nat) : List Char :=
  (fgets (maxSize - 1) (s.file.drop pos)).1

inductive Advances (pids : Process → CInt) (s : State) (p : Process) : State → Prop where
  | sleep (at_ : s.pc p = .sleep) :
      Advances pids s p (s.goto p (.getNumberOfLastLine 0 0))
  | endOfFile (pos : Nat) (last_number : Int)
      (at_ : s.pc p = .getNumberOfLastLine pos last_number) (line : s.nextLine pos = []) :
      Advances pids s p (s.goto p (.count last_number))
  | readLine (pos : Nat) (last_number : Int)
      (at_ : s.pc p = .getNumberOfLastLine pos last_number) (line : s.nextLine pos ≠ []) :
      Advances pids s p (s.goto p (.getNumberOfLastLine (pos + (s.nextLine pos).length)
        (scanLine (s.nextLine pos) last_number)))
  | count (last_number : Int) (at_ : s.pc p = .count last_number)
      (fits : FitsInt (last_number + 1)) :
      Advances pids s p { s.goto p .writeToFile with
        p_counter := Function.update s.p_counter p ⟨last_number + 1, fits⟩ }
  | writeToFile (at_ : s.pc p = .writeToFile) :
      Advances pids s p { s.goto p .printf with
        file := s.file ++ SignalSync.writeToFile (pids p) (s.p_counter p)
        written := s.written ++ [(p, s.p_counter p)] }
  | printf (at_ : s.pc p = .printf) : Advances pids s p (s.goto p .kill)
  | kill (at_ : s.pc p = .kill) :
      Advances pids s p { s.goto p .callPause with
        pending := Function.update s.pending p.other true }
  | callPause (at_ : s.pc p = .callPause) : Advances pids s p (s.goto p .inPause)

theorem advance_cases (h : s.advance pids p = some t) : Advances pids s p t := by
  unfold State.advance at h
  cases hpc : s.pc p with
  | sleep =>
      simp only [hpc, Option.some.injEq] at h
      exact h ▸ .sleep hpc
  | getNumberOfLastLine pos last =>
      simp only [hpc] at h
      split at h
      · rename_i hline
        exact Option.some.inj h ▸ .endOfFile pos last hpc hline
      · rename_i hline
        exact Option.some.inj h ▸ .readLine pos last hpc hline
  | count last =>
      simp only [hpc] at h
      split at h
      · rename_i hfits
        exact Option.some.inj h ▸ .count last hpc hfits
      · cases h
  | writeToFile =>
      simp only [hpc, Option.some.injEq] at h
      exact h ▸ .writeToFile hpc
  | printf =>
      simp only [hpc, Option.some.injEq] at h
      exact h ▸ .printf hpc
  | kill =>
      simp only [hpc, Option.some.injEq] at h
      exact h ▸ .kill hpc
  | callPause =>
      simp only [hpc, Option.some.injEq] at h
      exact h ▸ .callPause hpc
  | inPause =>
      rw [hpc] at h
      cases h

theorem deliver_cases (h : s.deliver p = some t) :
    s.pending p = true ∧ t = { s with
      pending := Function.update s.pending p false
      pc := if s.pc p = .inPause then Function.update s.pc p .sleep else s.pc } := by
  unfold State.deliver at h
  split at h
  · rename_i hpending
    exact ⟨hpending, (Option.some.inj h).symm⟩
  · cases h

theorem waiting_goto (c : Pc) : Waiting (s.goto p c) p ↔ c = .callPause ∨ c = .inPause := by
  simp [Waiting, State.goto]

theorem Advances.other (h : Advances pids s p t) {q : Process} (hq : q ≠ p) :
    t.pc q = s.pc q := by
  cases h <;> simp [State.goto, hq]

end LinuxTraining.SignalSync
