import LinuxTraining.Library.Execution
import LinuxTraining.Library.Lines
import LinuxTraining.Library.Threads
import Mathlib.Logic.Function.Basic

/-!
`read_file` of `mutex_sync.c`: every reader goes through the whole file by itself, and under
the lock it stores the number of a line in the shared array when the random draw is its own.
-/
namespace LinuxTraining.MutexSync
open Execution Stdio Threads

def maxFile : Nat := 100

def maxSize : Nat := 50

def getRandomThreadId (rand : Nat) : Int := rand % 3 + 1

inductive Pc where
  | fopen
  | fgets
  | lock
  | test
  | draw
  | printf
  | store
  | increment
  | unlock
  | fclose
  | done
  deriving DecidableEq

/-- A reader and its local variables; `fp` is what its file still has, and no thread reads
`taken`, the lines that it got from the file. -/
structure Reader where
  thread_id : Int
  fp : List Char
  buffer : List Char
  pc : Pc
  taken : List (List Char)

structure Store where
  index : Nat
  reader : Nat
  line : List Char

/-- What the readers share. `mutex` names the reader that holds the lock, and no thread reads
`stored`, the stores so far. -/
structure Shared where
  mutex : Option Nat
  data : Nat → Int
  count : Nat
  stored : List Store

structure State where
  readers : List Reader
  shared : Shared

/-- The reader that takes the next step, and what a call of `rand` gives it. -/
structure Turn where
  reader : Nat
  rand : Nat
  deriving DecidableEq

namespace Reader

def created (thread_id : Int) : Reader := ⟨thread_id, [], [], .fopen, []⟩

def goto (r : Reader) (pc : Pc) : Reader := { r with pc }

def read (r : Reader) : Reader :=
  { r with
    buffer := (fgets (maxFile - 1) r.fp).1
    fp := (fgets (maxFile - 1) r.fp).2
    pc := .lock
    taken := r.taken ++ [(fgets (maxFile - 1) r.fp).1] }

end Reader

def Shared.store (sh : Shared) (k : Nat) (r : Reader) : Shared :=
  { sh with
    data := Function.update sh.data sh.count (atoi r.buffer)
    stored := sh.stored ++ [⟨sh.count, k, r.buffer⟩] }

/-- The next step of reader `k` in `read_file`. -/
def readFile (text : List Char) (sh : Shared) (k : Nat) (r : Reader) (rand : Nat) :
    Option (Reader × Shared) :=
  match r.pc with
  | .fopen => some ({ r with fp := text, pc := .fgets }, sh)
  | .fgets =>
      if (fgets (maxFile - 1) r.fp).1 = [] then some (r.goto .fclose, sh) else some (r.read, sh)
  | .lock => if sh.mutex = none then some (r.goto .test, { sh with mutex := some k }) else none
  | .test => if sh.count < maxSize then some (r.goto .draw, sh) else some (r.goto .unlock, sh)
  | .draw =>
      if getRandomThreadId rand = r.thread_id then some (r.goto .printf, sh)
      else some (r.goto .unlock, sh)
  | .printf => some (r.goto .store, sh)
  | .store => some (r.goto .increment, sh.store k r)
  | .increment => some (r.goto .unlock, { sh with count := sh.count + 1 })
  | .unlock => some (r.goto .fgets, { sh with mutex := none })
  | .fclose => some (r.goto .done, sh)
  | .done => none

def step (text : List Char) (s : State) (e : Turn) : Option State :=
  match s.readers[e.reader]? with
  | none => none
  | some r =>
      (readFile text s.shared e.reader r e.rand).map fun (r', sh) =>
        { readers := s.readers.set e.reader r', shared := sh }

def emptyShared : Shared := ⟨none, fun _ => 0, 0, []⟩

def start (thread_ids : List Int) : State := ⟨thread_ids.map Reader.created, emptyShared⟩

/-- Between `pthread_mutex_lock` and `pthread_mutex_unlock`. -/
def Pc.locked : Pc → Bool
  | .test | .draw | .printf | .store | .increment | .unlock => true
  | _ => false

def Pc.hasRoom : Pc → Bool
  | .draw | .printf | .store | .increment => true
  | _ => false

def Pc.hasLine : Pc → Bool
  | .lock | .test | .draw | .printf | .store | .increment | .unlock => true
  | _ => false

/-- Everything a step of a reader can do. -/
inductive Moved (text : List Char) (sh : Shared) (k : Nat) (r : Reader) :
    Reader → Shared → Prop where
  | opens (at_ : r.pc = .fopen) : Moved text sh k r { r with fp := text, pc := .fgets } sh
  | reads (at_ : r.pc = .fgets) (more : r.fp ≠ []) : Moved text sh k r r.read sh
  | ends (at_ : r.pc = .fgets) (rest_nil : r.fp = []) : Moved text sh k r (r.goto .fclose) sh
  | locks (at_ : r.pc = .lock) (free : sh.mutex = none) :
      Moved text sh k r (r.goto .test) { sh with mutex := some k }
  | tests (at_ : r.pc = .test) (room : sh.count < maxSize) : Moved text sh k r (r.goto .draw) sh
  | leaves (at_ : r.pc = .test ∨ r.pc = .draw) : Moved text sh k r (r.goto .unlock) sh
  | draws (at_ : r.pc = .draw) : Moved text sh k r (r.goto .printf) sh
  | prints (at_ : r.pc = .printf) : Moved text sh k r (r.goto .store) sh
  | stores (at_ : r.pc = .store) : Moved text sh k r (r.goto .increment) (sh.store k r)
  | increments (at_ : r.pc = .increment) :
      Moved text sh k r (r.goto .unlock) { sh with count := sh.count + 1 }
  | unlocks (at_ : r.pc = .unlock) : Moved text sh k r (r.goto .fgets) { sh with mutex := none }
  | closes (at_ : r.pc = .fclose) : Moved text sh k r (r.goto .done) sh

variable {text : List Char} {sh sh' : Shared} {s t : State} {k rand : Nat} {r r' : Reader}

theorem fgets_eq_nil_iff {rest : List Char} : (fgets (maxFile - 1) rest).1 = [] ↔ rest = [] := by
  constructor
  · intro h
    by_contra hne
    exact fgets_ne_nil (by decide) hne h
  · rintro rfl
    rfl

theorem readFile_moved (h : readFile text sh k r rand = some (r', sh')) :
    Moved text sh k r r' sh' := by
  unfold readFile at h
  cases hpc : r.pc with
  | fopen =>
      simp only [hpc] at h
      cases h
      exact .opens hpc
  | fgets =>
      simp only [hpc, fgets_eq_nil_iff] at h
      split at h
      · next hover =>
        cases h
        exact .ends hpc hover
      · next hmore =>
        cases h
        exact .reads hpc hmore
  | lock =>
      simp only [hpc] at h
      split at h
      · next hfree =>
        cases h
        exact .locks hpc hfree
      · cases h
  | test =>
      simp only [hpc] at h
      split at h
      · next hroom =>
        cases h
        exact .tests hpc hroom
      · cases h
        exact .leaves (.inl hpc)
  | draw =>
      simp only [hpc] at h
      split at h
      · cases h
        exact .draws hpc
      · cases h
        exact .leaves (.inr hpc)
  | printf =>
      simp only [hpc] at h
      cases h
      exact .prints hpc
  | store =>
      simp only [hpc] at h
      cases h
      exact .stores hpc
  | increment =>
      simp only [hpc] at h
      cases h
      exact .increments hpc
  | unlock =>
      simp only [hpc] at h
      cases h
      exact .unlocks hpc
  | fclose =>
      simp only [hpc] at h
      cases h
      exact .closes hpc
  | done => simp [hpc] at h

theorem step_moved {e : Turn} (h : step text s e = some t) :
    ∃ r r' sh, s.readers[e.reader]? = some r ∧ Moved text s.shared e.reader r r' sh ∧
      t = ⟨s.readers.set e.reader r', sh⟩ := by
  cases hr : s.readers[e.reader]? with
  | none => simp [step, hr] at h
  | some r =>
      simp only [step, hr] at h
      obtain ⟨⟨r', sh⟩, hread, rfl⟩ := Option.map_eq_some_iff.mp h
      exact ⟨r, r', sh, rfl, readFile_moved hread, rfl⟩

end LinuxTraining.MutexSync
