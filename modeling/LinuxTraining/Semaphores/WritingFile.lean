import LinuxTraining.Library.Execution
import LinuxTraining.Library.Semaphore

/-!
`thread_tunction` of `semaphore_sync.c`: threads that take one of two semaphores, by the
file they are to write to, increment one shared counter and write its value. What a
thread prints stays in the buffer of its own stream until `fclose`, so a step is one
access to what the threads share: a file, a semaphore or the counter.
-/
namespace LinuxTraining.WritingFile
open Execution Semaphore

/-- `output1.txt`, which goes with `g_sem1`, and `output2.txt`, which goes with `g_sem2`. -/
inductive File where
  | output1
  | output2
  deriving DecidableEq

def intMax : Nat := 2147483647

structure Line where
  thread_id : Nat
  number : Nat
  deriving DecidableEq

/-- Where a thread stands in its loop, with the file it has drawn, the value that
`g_common_var++` has loaded, and the number in the buffer of the file. -/
inductive Pc where
  | fopen
  | semWait (file : File)
  | load (file : File)
  | store (file : File) (loaded : Nat)
  | fprintf (file : File)
  | printf (file : File) (number : Nat)
  | sleep (file : File) (number : Nat)
  | semPost (file : File) (number : Nat)
  | fclose (file : File) (number : Nat)
  | done
  deriving DecidableEq

/-- `i` is the loop variable of each thread; `lines` is what has reached the files. -/
structure State (n : Nat) where
  g_common_var : Nat
  sem : File → Nat
  lines : File → List Line
  i : Fin n → Nat
  pc : Fin n → Pc

/-- `fopen t file` is the draw of a file and its successful opening. -/
inductive Event (n : Nat) where
  | fopen (t : Fin n) (file : File)
  | fopenFails (t : Fin n)
  | run (t : Fin n)
  deriving DecidableEq

def start (n : Nat) : State n where
  g_common_var := 0
  sem := fun _ => 1
  lines := fun _ => []
  i := fun _ => 0
  pc := fun _ => .fopen

variable {n : Nat}

def State.goto (s : State n) (t : Fin n) (pc : Pc) : State n :=
  { s with pc := Function.update s.pc t pc }

/-- The next step of a thread; `thread_ids` are 1, 2, 3 and so on. The increment has no
meaning at `INT_MAX`. -/
def State.run (maxValue : Nat) (s : State n) (t : Fin n) : Option (State n) :=
  match s.pc t with
  | .fopen => if s.i t < maxValue then none else some (s.goto t .done)
  | .semWait file => do
      let value ← semWait (s.sem file)
      some { s.goto t (.load file) with sem := Function.update s.sem file value }
  | .load file => some (s.goto t (.store file s.g_common_var))
  | .store file loaded =>
      if loaded < intMax then
        some { s.goto t (.fprintf file) with g_common_var := loaded + 1 }
      else none
  | .fprintf file => some (s.goto t (.printf file s.g_common_var))
  | .printf file number => some (s.goto t (.sleep file number))
  | .sleep file number => some (s.goto t (.semPost file number))
  | .semPost file number =>
      some { s.goto t (.fclose file number) with
        sem := Function.update s.sem file (semPost (s.sem file)) }
  | .fclose file number =>
      some { s.goto t .fopen with
        lines := Function.update s.lines file (s.lines file ++ [⟨t + 1, number⟩])
        i := Function.update s.i t (s.i t + 1) }
  | .done => none

def step (maxValue : Nat) (s : State n) : Event n → Option (State n)
  | .fopen t file =>
      if s.pc t = .fopen ∧ s.i t < maxValue then some (s.goto t (.semWait file)) else none
  | .fopenFails t =>
      if s.pc t = .fopen ∧ s.i t < maxValue then some (s.goto t .done) else none
  | .run t => s.run maxValue t

def State.Finished (s : State n) : Prop := ∀ t, s.pc t = .done

def State.numbers (s : State n) (file : File) : List Nat := (s.lines file).map Line.number

/-- Between the load of the counter and `fprintf`. -/
def Pc.updating : Pc → Bool
  | .store _ _ | .fprintf _ => true
  | _ => false

def Pc.unflushed : Pc → Option (File × Nat)
  | .printf file number | .sleep file number | .semPost file number | .fclose file number =>
      some (file, number)
  | _ => none

inductive Moves (s : State n) : Event n → State n → Prop where
  | silent {e : Event n} {t : Fin n} {pc : Pc} {sem : File → Nat}
      (mover : ∀ v, e = .run v → v = t) (from_ : (s.pc t).updating = false)
      (open_ : ∀ file number, s.pc t ≠ .fclose file number) (to_ : pc.updating = false)
      (buffer : pc.unflushed = (s.pc t).unflushed) :
      Moves s e { s.goto t pc with sem := sem }
  | load {t : Fin n} {file : File} (at_ : s.pc t = .load file) :
      Moves s (.run t) (s.goto t (.store file s.g_common_var))
  | store {t : Fin n} {file : File} {loaded : Nat} (at_ : s.pc t = .store file loaded) :
      Moves s (.run t) { s.goto t (.fprintf file) with g_common_var := loaded + 1 }
  | fprintf {t : Fin n} {file : File} (at_ : s.pc t = .fprintf file) :
      Moves s (.run t) (s.goto t (.printf file s.g_common_var))
  | fclose {t : Fin n} {file : File} {number : Nat} (at_ : s.pc t = .fclose file number) :
      Moves s (.run t) { s.goto t .fopen with
        lines := Function.update s.lines file (s.lines file ++ [⟨t + 1, number⟩])
        i := Function.update s.i t (s.i t + 1) }

variable {maxValue : Nat} {s u : State n} {t : Fin n}

theorem run_cases (h : s.run maxValue t = some u) : Moves s (.run t) u := by
  cases hpc : s.pc t with
  | fopen =>
      simp only [State.run, hpc, Option.ite_none_left_eq_some, Option.some.injEq] at h
      exact h.2 ▸ .silent (by simp) (by simp [hpc, Pc.updating]) (by simp [hpc]) rfl
        (by simp [hpc, Pc.unflushed])
  | semWait file =>
      simp only [State.run, hpc, Option.bind_eq_bind, Option.bind_eq_some_iff,
        Option.some.injEq] at h
      obtain ⟨value, -, rfl⟩ := h
      exact .silent (by simp) (by simp [hpc, Pc.updating]) (by simp [hpc]) rfl
        (by simp [hpc, Pc.unflushed])
  | load file =>
      simp only [State.run, hpc, Option.some.injEq] at h
      exact h ▸ .load hpc
  | store file loaded =>
      simp only [State.run, hpc, Option.ite_none_right_eq_some, Option.some.injEq] at h
      exact h.2 ▸ .store hpc
  | fprintf file =>
      simp only [State.run, hpc, Option.some.injEq] at h
      exact h ▸ .fprintf hpc
  | printf file number | sleep file number | semPost file number =>
      simp only [State.run, hpc, Option.some.injEq] at h
      exact h ▸ .silent (by simp) (by simp [hpc, Pc.updating]) (by simp [hpc]) rfl
        (by simp [hpc, Pc.unflushed])
  | fclose file number =>
      simp only [State.run, hpc, Option.some.injEq] at h
      exact h ▸ .fclose hpc
  | done => simp [State.run, hpc] at h

theorem step_cases {e : Event n} (h : step maxValue s e = some u) : Moves s e u := by
  cases e with
  | run t => exact run_cases h
  | fopen t file =>
      simp only [step, Option.ite_none_right_eq_some, Option.some.injEq] at h
      obtain ⟨⟨hpc, -⟩, rfl⟩ := h
      exact .silent (by simp) (by simp [hpc, Pc.updating]) (by simp [hpc]) rfl
        (by simp [hpc, Pc.unflushed])
  | fopenFails t =>
      simp only [step, Option.ite_none_right_eq_some, Option.some.injEq] at h
      obtain ⟨⟨hpc, -⟩, rfl⟩ := h
      exact .silent (by simp) (by simp [hpc, Pc.updating]) (by simp [hpc]) rfl
        (by simp [hpc, Pc.unflushed])

end LinuxTraining.WritingFile
