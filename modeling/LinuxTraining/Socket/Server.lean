import LinuxTraining.Library.Execution
import Mathlib.Algebra.GroupWithZero.Nat
import Mathlib.Algebra.Group.Int.Defs
import Mathlib.Logic.Function.Basic
import Mathlib.Data.Int.Basic

/-!
The accept loop of `server.c` and its handler threads. `client_count` and the
table `client_sockets` of main are shared: the descriptor of a connection reaches
its handler through the address of a table entry. The accounts of descriptors that
`accept` returned are for the statements only; no statement of the code reads them.
-/
namespace LinuxTraining.Socket
open Execution

def maxClients : Nat := 20

instance : NeZero maxClients := ⟨Nat.succ_ne_zero _⟩

/-- Whether `client_count++` and `client_count--` are one step, or a load and a store. -/
inductive Granularity where
  | atomic
  | loadStore
  deriving DecidableEq

/-- Where main stands in its loop. The two sides of
`client_sockets[client_count] = accept(..)` are evaluated in either order; `accepted`
is what `accept` returned in this turn of the loop. -/
inductive MainPc where
  | assign (index : Option (Fin maxClients)) (accepted : Option Int)
  | test (accepted : Int)
  | printf (accepted : Int)
  | create (accepted : Int)
  | increment (loaded : Option Int)
  | checkMax
  | stop
  | exited
  | undefined
  deriving DecidableEq

/-- Where a handler stands: before it reads its argument, in `read`, before or after
the answer, or behind its loop. -/
inductive HandlerPc where
  | start
  | read
  | answer
  | decrement (loaded : Option Int)
  | close
  | ended
  deriving DecidableEq

structure Handler where
  arg : Fin maxClients
  /-- What `accept` returned in the loop turn that created the thread. -/
  accepted : Int
  client_socket : Int
  bytes_read : Int
  pc : HandlerPc
  deriving DecidableEq

structure State where
  main : MainPc
  client_count : Int
  client_sockets : Fin maxClients → Int
  handlers : List Handler
  isOpen : Int → Bool

/-- A step of main, one of its calls that answers in several ways, or a step of a
handler; `read k n` is the return of `n` from the `read` of handler `k`. -/
inductive Event where
  | evaluate
  | accept (fd : Int)
  | main
  | createFails
  | handler (k : Nat)
  | read (k : Nat) (n : Int)
  deriving DecidableEq

def start : State where
  main := .assign none none
  client_count := 0
  client_sockets := fun _ => 0
  handlers := []
  isOpen := fun fd => decide (0 ≤ fd ∧ fd ≤ 3)

/-- The table entry that an index stands for; outside the table the evaluation has no
meaning. -/
def slot (index : Int) : Option (Fin maxClients) :=
  if h : 0 ≤ index ∧ index < maxClients then some ⟨index.toNat, by omega⟩ else none

/-- `accept` returns a descriptor that is not in use, or -1. -/
def Fresh (s : State) (fd : Int) : Prop := fd = -1 ∨ (0 ≤ fd ∧ s.isOpen fd = false)

instance (s : State) (fd : Int) : Decidable (Fresh s fd) := by
  unfold Fresh
  infer_instance

namespace State

def atSlot (s : State) (next : Fin maxClients → State) : State :=
  match slot s.client_count with
  | none => { s with main := .undefined }
  | some i => next i

def evaluate (s : State) : Option State :=
  match s.main with
  | .assign none accepted =>
      some (s.atSlot fun i => { s with main := .assign (some i) accepted })
  | _ => none

def accept (s : State) (fd : Int) : Option State :=
  match s.main with
  | .assign index none =>
      if Fresh s fd then
        some { s with
          main := .assign index (some fd)
          isOpen := if 0 ≤ fd then Function.update s.isOpen fd true else s.isOpen }
      else none
  | _ => none

def mainStep (g : Granularity) (s : State) : Option State :=
  match s.main with
  | .assign (some i) (some fd) =>
      some { s with client_sockets := Function.update s.client_sockets i fd, main := .test fd }
  | .assign _ _ => none
  | .test fd =>
      some (s.atSlot fun i =>
        { s with main := if s.client_sockets i < 0 then .exited else .printf fd })
  | .printf fd => some { s with main := .create fd }
  | .create fd =>
      some (s.atSlot fun i =>
        { s with handlers := s.handlers ++ [⟨i, fd, 0, 0, .start⟩], main := .increment none })
  | .increment none =>
      match g with
      | .atomic => some { s with client_count := s.client_count + 1, main := .checkMax }
      | .loadStore => some { s with main := .increment (some s.client_count) }
  | .increment (some loaded) =>
      some { s with client_count := loaded + 1, main := .checkMax }
  | .checkMax =>
      some { s with main := if maxClients ≤ s.client_count then .stop else .assign none none }
  | .stop => some { s with main := .exited }
  | .exited | .undefined => none

def createFails (s : State) : Option State :=
  match s.main with
  | .create _ => some (s.atSlot fun _ => { s with main := .exited })
  | _ => none

def Running (s : State) : Prop := s.main ≠ .exited ∧ s.main ≠ .undefined

instance (s : State) : Decidable s.Running := by
  unfold Running
  infer_instance

/-- A step of `handle_client` that does not depend on the client. -/
def handleClient (g : Granularity) (s : State) (k : Nat) (h : Handler) : Option State :=
  match h.pc with
  | .start =>
      some { s with
        handlers := s.handlers.set k
          { h with client_socket := s.client_sockets h.arg, pc := .read } }
  | .read => none
  | .answer => some { s with handlers := s.handlers.set k { h with pc := .read } }
  | .decrement none =>
      match g with
      | .atomic =>
          some { s with
            client_count := s.client_count - 1
            handlers := s.handlers.set k { h with pc := .close } }
      | .loadStore =>
          some { s with
            handlers := s.handlers.set k { h with pc := .decrement (some s.client_count) } }
  | .decrement (some loaded) =>
      some { s with
        client_count := loaded - 1
        handlers := s.handlers.set k { h with pc := .close } }
  | .close =>
      some { s with
        isOpen := Function.update s.isOpen h.client_socket false
        handlers := s.handlers.set k { h with pc := .ended } }
  | .ended => none

/-- `read` returns: bytes of the client, 0 after its close, or an error. -/
def read (s : State) (k : Nat) (h : Handler) (n : Int) : Option State :=
  if h.pc = .read ∧ (0 ≤ n → s.isOpen h.client_socket = true) then
    some { s with
      handlers := s.handlers.set k { h with
        bytes_read := n
        pc := if 0 < n then .answer else if n = 0 then .decrement none else .close } }
  else none

def withHandler (s : State) (k : Nat) (act : Handler → Option State) : Option State :=
  if s.Running then
    match s.handlers[k]? with
    | none => none
    | some h => act h
  else none

end State

def step (g : Granularity) (s : State) : Event → Option State
  | .evaluate => s.evaluate
  | .accept fd => s.accept fd
  | .main => s.mainStep g
  | .createFails => s.createFails
  | .handler k => s.withHandler k (s.handleClient g k)
  | .read k n => s.withHandler k fun h => s.read k h n

def State.descriptor (s : State) (h : Handler) : Int :=
  if h.pc = .start then s.client_sockets h.arg else h.client_socket

variable {g : Granularity} {s t : State} {k : Nat} {h : Handler}

theorem slot_eq_none {n : Int} : slot n = none ↔ ¬ (0 ≤ n ∧ n < maxClients) := by
  by_cases hn : 0 ≤ n ∧ n < maxClients
  · simp [slot, hn]
  · simp [slot, hn]

def State.atTable (s : State) (e : Event) : Bool :=
  match e, s.main with
  | .evaluate, .assign none _ | .main, .test _ | .main, .create _ | .createFails, .create _ => true
  | _, _ => false

inductive Moves (g : Granularity) (s : State) : Event → State → Prop where
  | outOfRange {e : Event} (at_ : s.atTable e = true) (out : slot s.client_count = none) :
      Moves g s e { s with main := .undefined }
  | evaluate {accepted : Option Int} {i : Fin maxClients} (at_ : s.main = .assign none accepted)
      (inRange : slot s.client_count = some i) :
      Moves g s .evaluate { s with main := .assign (some i) accepted }
  | accept {index : Option (Fin maxClients)} {fd : Int} (at_ : s.main = .assign index none)
      (fresh : Fresh s fd) :
      Moves g s (.accept fd) { s with
        main := .assign index (some fd)
        isOpen := if 0 ≤ fd then Function.update s.isOpen fd true else s.isOpen }
  | store {i : Fin maxClients} {fd : Int} (at_ : s.main = .assign (some i) (some fd)) :
      Moves g s .main
        { s with client_sockets := Function.update s.client_sockets i fd, main := .test fd }
  | test {i : Fin maxClients} {fd : Int} (at_ : s.main = .test fd)
      (inRange : slot s.client_count = some i) :
      Moves g s .main
        { s with main := if s.client_sockets i < 0 then .exited else .printf fd }
  | printf {fd : Int} (at_ : s.main = .printf fd) :
      Moves g s .main { s with main := .create fd }
  | create {i : Fin maxClients} {fd : Int} (at_ : s.main = .create fd)
      (inRange : slot s.client_count = some i) :
      Moves g s .main
        { s with handlers := s.handlers ++ [⟨i, fd, 0, 0, .start⟩], main := .increment none }
  | createFails {i : Fin maxClients} {fd : Int} (at_ : s.main = .create fd)
      (inRange : slot s.client_count = some i) :
      Moves g s .createFails { s with main := .exited }
  | increment (at_ : s.main = .increment none) (atomic : g = .atomic) :
      Moves g s .main { s with client_count := s.client_count + 1, main := .checkMax }
  | incrementLoad (at_ : s.main = .increment none) (loadStore : g = .loadStore) :
      Moves g s .main { s with main := .increment (some s.client_count) }
  | incrementStore {loaded : Int} (at_ : s.main = .increment (some loaded))  :
      Moves g s .main { s with client_count := loaded + 1, main := .checkMax }
  | checkMax (at_ : s.main = .checkMax) :
      Moves g s .main
        { s with main := if maxClients ≤ s.client_count then .stop else .assign none none }
  | stop (at_ : s.main = .stop) : Moves g s .main { s with main := .exited }
  | start {k : Nat} {h : Handler} (runs : s.Running) (found : s.handlers[k]? = some h)
      (at_ : h.pc = .start) :
      Moves g s (.handler k) { s with
        handlers := s.handlers.set k
          { h with client_socket := s.client_sockets h.arg, pc := .read } }
  | read {k : Nat} {h : Handler} {n : Int} (runs : s.Running) (found : s.handlers[k]? = some h)
      (at_ : h.pc = .read) :
      Moves g s (.read k n) { s with
        handlers := s.handlers.set k { h with
          bytes_read := n
          pc := if 0 < n then .answer else if n = 0 then .decrement none else .close } }
  | answer {k : Nat} {h : Handler} (runs : s.Running) (found : s.handlers[k]? = some h)
      (at_ : h.pc = .answer) :
      Moves g s (.handler k) { s with handlers := s.handlers.set k { h with pc := .read } }
  | decrement {k : Nat} {h : Handler} (runs : s.Running) (found : s.handlers[k]? = some h)
      (at_ : h.pc = .decrement none) (atomic : g = .atomic) :
      Moves g s (.handler k) { s with
        client_count := s.client_count - 1
        handlers := s.handlers.set k { h with pc := .close } }
  | decrementLoad {k : Nat} {h : Handler} (runs : s.Running) (found : s.handlers[k]? = some h)
      (at_ : h.pc = .decrement none) (loadStore : g = .loadStore) :
      Moves g s (.handler k) { s with
        handlers := s.handlers.set k { h with pc := .decrement (some s.client_count) } }
  | decrementStore {k : Nat} {h : Handler} {loaded : Int} (runs : s.Running)
      (found : s.handlers[k]? = some h) (at_ : h.pc = .decrement (some loaded)) :
      Moves g s (.handler k) { s with
        client_count := loaded - 1
        handlers := s.handlers.set k { h with pc := .close } }
  | close {k : Nat} {h : Handler} (runs : s.Running) (found : s.handlers[k]? = some h)
      (at_ : h.pc = .close) :
      Moves g s (.handler k) { s with
        isOpen := Function.update s.isOpen h.client_socket false
        handlers := s.handlers.set k { h with pc := .ended } }

theorem atSlot_cases {e : Event} {next : Fin maxClients → State} (at_ : s.atTable e = true)
    (inside : ∀ i, slot s.client_count = some i → Moves g s e (next i)) :
    Moves g s e (s.atSlot next) := by
  simp only [State.atSlot]
  cases hslot : slot s.client_count with
  | none => exact .outOfRange at_ hslot
  | some i => exact inside i hslot

theorem mainStep_cases (hstep : s.mainStep g = some t) : Moves g s .main t := by
  cases hpc : s.main with
  | assign index accepted =>
      cases index with
      | none => simp [State.mainStep, hpc] at hstep
      | some i =>
          cases accepted with
          | none => simp [State.mainStep, hpc] at hstep
          | some fd =>
              simp only [State.mainStep, hpc, Option.some.injEq] at hstep
              exact hstep ▸ .store hpc
  | test fd =>
      simp only [State.mainStep, hpc, Option.some.injEq] at hstep
      exact hstep ▸ atSlot_cases (by simp [State.atTable, hpc])
        fun i hslot => .test hpc hslot
  | printf fd =>
      simp only [State.mainStep, hpc, Option.some.injEq] at hstep
      exact hstep ▸ .printf hpc
  | create fd =>
      simp only [State.mainStep, hpc, Option.some.injEq] at hstep
      exact hstep ▸ atSlot_cases (by simp [State.atTable, hpc])
        fun i hslot => .create hpc hslot
  | increment loaded =>
      cases loaded with
      | none =>
          cases g with
          | atomic =>
              simp only [State.mainStep, hpc, Option.some.injEq] at hstep
              exact hstep ▸ .increment hpc rfl
          | loadStore =>
              simp only [State.mainStep, hpc, Option.some.injEq] at hstep
              exact hstep ▸ .incrementLoad hpc rfl
      | some loaded =>
          simp only [State.mainStep, hpc, Option.some.injEq] at hstep
          exact hstep ▸ .incrementStore hpc
  | checkMax =>
      simp only [State.mainStep, hpc, Option.some.injEq] at hstep
      exact hstep ▸ .checkMax hpc
  | stop =>
      simp only [State.mainStep, hpc, Option.some.injEq] at hstep
      exact hstep ▸ .stop hpc
  | exited | undefined => simp [State.mainStep, hpc] at hstep

theorem handleClient_cases (runs : s.Running) (found : s.handlers[k]? = some h)
    (hstep : s.handleClient g k h = some t) : Moves g s (.handler k) t := by
  cases hpc : h.pc with
  | start =>
      simp only [State.handleClient, hpc, Option.some.injEq] at hstep
      exact hstep ▸ .start runs found hpc
  | answer =>
      simp only [State.handleClient, hpc, Option.some.injEq] at hstep
      exact hstep ▸ .answer runs found hpc
  | decrement loaded =>
      cases loaded with
      | none =>
          cases g with
          | atomic =>
              simp only [State.handleClient, hpc, Option.some.injEq] at hstep
              exact hstep ▸ .decrement runs found hpc rfl
          | loadStore =>
              simp only [State.handleClient, hpc, Option.some.injEq] at hstep
              exact hstep ▸ .decrementLoad runs found hpc rfl
      | some loaded =>
          simp only [State.handleClient, hpc, Option.some.injEq] at hstep
          exact hstep ▸ .decrementStore runs found hpc
  | close =>
      simp only [State.handleClient, hpc, Option.some.injEq] at hstep
      exact hstep ▸ .close runs found hpc
  | read | ended => simp [State.handleClient, hpc] at hstep

theorem withHandler_eq_some {act : Handler → Option State}
    (hstep : s.withHandler k act = some t) :
    s.Running ∧ ∃ h, s.handlers[k]? = some h ∧ act h = some t := by
  by_cases hruns : s.Running
  · cases hfound : s.handlers[k]? with
    | none => simp [State.withHandler, hruns, hfound] at hstep
    | some h =>
        simp only [State.withHandler, hruns, hfound, if_true] at hstep
        exact ⟨hruns, h, rfl, hstep⟩
  · simp [State.withHandler, hruns] at hstep

theorem step_cases {e : Event} (hstep : step g s e = some t) : Moves g s e t := by
  cases e with
  | evaluate =>
      cases hpc : s.main with
      | assign index accepted =>
          cases index with
          | none =>
              simp only [step, State.evaluate, hpc, Option.some.injEq] at hstep
              exact hstep ▸ atSlot_cases (by simp [State.atTable, hpc])
                fun i hslot => .evaluate hpc hslot
          | some i => simp [step, State.evaluate, hpc] at hstep
      | _ => simp [step, State.evaluate, hpc] at hstep
  | accept fd =>
      cases hpc : s.main with
      | assign index accepted =>
          cases accepted with
          | none =>
              by_cases hfresh : Fresh s fd
              · simp only [step, State.accept, hpc, hfresh, if_true, Option.some.injEq] at hstep
                exact hstep ▸ .accept hpc hfresh
              · simp [step, State.accept, hpc, hfresh] at hstep
          | some fd => simp [step, State.accept, hpc] at hstep
      | _ => simp [step, State.accept, hpc] at hstep
  | main => exact mainStep_cases hstep
  | createFails =>
      cases hpc : s.main with
      | create fd =>
          simp only [step, State.createFails, hpc, Option.some.injEq] at hstep
          exact hstep ▸ atSlot_cases (by simp [State.atTable, hpc])
            fun i hslot => .createFails hpc hslot
      | _ => simp [step, State.createFails, hpc] at hstep
  | handler k =>
      obtain ⟨hruns, h, hfound, hact⟩ := withHandler_eq_some hstep
      exact handleClient_cases hruns hfound hact
  | read k n =>
      obtain ⟨hruns, h, hfound, hact⟩ := withHandler_eq_some hstep
      by_cases hpc : h.pc = .read ∧ (0 ≤ n → s.isOpen h.client_socket = true)
      · rw [State.read, if_pos hpc, Option.some.injEq] at hact
        exact hact ▸ .read hruns hfound hpc.1
      · rw [State.read, if_neg hpc] at hact
        cases hact

end LinuxTraining.Socket
