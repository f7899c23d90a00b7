import LinuxTraining.Library.Execution
import LinuxTraining.Library.Semaphore

/-!
The producer/consumer program: processes that share three semaphores and loop
for ever, each step being one statement of its loop. No item is ever stored; the
two counting semaphores stand for the slots of the buffer.
-/
namespace LinuxTraining.ProducerConsumer
open Execution Semaphore

def bufferSize : Nat := 10

inductive ProducerPc where
  | waitEmpty
  | waitMutex
  | printf
  | postFull
  | postMutex
  | sleep
  deriving DecidableEq

inductive ConsumerPc where
  | waitFull
  | waitMutex
  | printf
  | postMutex
  | postEmpty
  | sleep
  deriving DecidableEq

/-- The semaphores in shared memory, and where each of the `p` producers and `c`
consumers stands. -/
structure State (p c : Nat) where
  mutex : Nat
  full_buffer : Nat
  empty_buffer : Nat
  producer : Fin p → ProducerPc
  consumer : Fin c → ConsumerPc

inductive Process (p c : Nat) where
  | producer (i : Fin p)
  | consumer (j : Fin c)

def start (p c : Nat) : State p c where
  mutex := 1
  full_buffer := 0
  empty_buffer := bufferSize
  producer := fun _ => .waitEmpty
  consumer := fun _ => .waitFull

variable {p c : Nat}

def produce (s : State p c) (i : Fin p) : Option (State p c) :=
  let goto pc := Function.update s.producer i pc
  match s.producer i with
  | .waitEmpty => do
      let empty ← semWait s.empty_buffer
      some { s with empty_buffer := empty, producer := goto .waitMutex }
  | .waitMutex => do
      let mutex ← semWait s.mutex
      some { s with mutex := mutex, producer := goto .printf }
  | .printf => some { s with producer := goto .postFull }
  | .postFull =>
      some { s with full_buffer := semPost s.full_buffer, producer := goto .postMutex }
  | .postMutex => some { s with mutex := semPost s.mutex, producer := goto .sleep }
  | .sleep => some { s with producer := goto .waitEmpty }

def consume (s : State p c) (j : Fin c) : Option (State p c) :=
  let goto pc := Function.update s.consumer j pc
  match s.consumer j with
  | .waitFull => do
      let full ← semWait s.full_buffer
      some { s with full_buffer := full, consumer := goto .waitMutex }
  | .waitMutex => do
      let mutex ← semWait s.mutex
      some { s with mutex := mutex, consumer := goto .printf }
  | .printf => some { s with consumer := goto .postMutex }
  | .postMutex => some { s with mutex := semPost s.mutex, consumer := goto .postEmpty }
  | .postEmpty =>
      some { s with empty_buffer := semPost s.empty_buffer, consumer := goto .sleep }
  | .sleep => some { s with consumer := goto .waitFull }

def step (s : State p c) : Process p c → Option (State p c)
  | .producer i => produce s i
  | .consumer j => consume s j

/-- The statements of both loops, by what a process does there with its own counting
semaphore, which it waits for, and with the other one, which it posts. -/
inductive Statement where
  | waitOwn
  | waitMutex
  | printf
  | postMutex
  | postOther
  | sleep
  deriving DecidableEq

def Statement.count (a b : Statement) : Nat := if a = b then 1 else 0

def ProducerPc.statement : ProducerPc → Statement
  | .waitEmpty => .waitOwn
  | .waitMutex => .waitMutex
  | .printf => .printf
  | .postFull => .postOther
  | .postMutex => .postMutex
  | .sleep => .sleep

def ProducerPc.next : ProducerPc → ProducerPc
  | .waitEmpty => .waitMutex
  | .waitMutex => .printf
  | .printf => .postFull
  | .postFull => .postMutex
  | .postMutex => .sleep
  | .sleep => .waitEmpty

def ConsumerPc.statement : ConsumerPc → Statement
  | .waitFull => .waitOwn
  | .waitMutex => .waitMutex
  | .printf => .printf
  | .postMutex => .postMutex
  | .postEmpty => .postOther
  | .sleep => .sleep

def ConsumerPc.next : ConsumerPc → ConsumerPc
  | .waitFull => .waitMutex
  | .waitMutex => .printf
  | .printf => .postMutex
  | .postMutex => .postEmpty
  | .postEmpty => .sleep
  | .sleep => .waitFull

namespace State

def statement (s : State p c) : Process p c → Statement
  | .producer i => (s.producer i).statement
  | .consumer j => (s.consumer j).statement

def own (s : State p c) : Process p c → Nat
  | .producer _ => s.empty_buffer
  | .consumer _ => s.full_buffer

def other (s : State p c) : Process p c → Nat
  | .producer _ => s.full_buffer
  | .consumer _ => s.empty_buffer

/-- What the processes have together, each by the statement it is at. -/
def total (s : State p c) (f : ProducerPc → Nat) (g : ConsumerPc → Nat) : Nat :=
  ∑ i, f (s.producer i) + ∑ j, g (s.consumer j)

def share (s : State p c) (f : ProducerPc → Nat) (g : ConsumerPc → Nat) : Process p c → Nat
  | .producer i => f (s.producer i)
  | .consumer j => g (s.consumer j)

def nextShare (s : State p c) (f : ProducerPc → Nat) (g : ConsumerPc → Nat) :
    Process p c → Nat
  | .producer i => f (s.producer i).next
  | .consumer j => g (s.consumer j).next

end State

/-- Between sem_wait(empty_buffer) and sem_post(full_buffer). -/
def ProducerPc.fills : ProducerPc → Bool
  | .waitMutex | .printf | .postFull => true
  | _ => false

/-- Between sem_wait(full_buffer) and sem_post(empty_buffer). -/
def ConsumerPc.drains : ConsumerPc → Bool
  | .waitMutex | .printf | .postMutex | .postEmpty => true
  | _ => false

/-- Between sem_wait(mutex) and sem_post(mutex). -/
def ProducerPc.inMutex : ProducerPc → Bool
  | .printf | .postFull | .postMutex => true
  | _ => false

def ConsumerPc.inMutex : ConsumerPc → Bool
  | .printf | .postMutex => true
  | _ => false

def State.inMutex (s : State p c) : Nat :=
  occupants ProducerPc.inMutex s.producer + occupants ConsumerPc.inMutex s.consumer

/-- Every unit of a semaphore is in it or with a process. -/
structure Balanced (s : State p c) : Prop where
  slots : s.empty_buffer + s.full_buffer + occupants ProducerPc.fills s.producer +
    occupants ConsumerPc.drains s.consumer = bufferSize
  mutex : s.mutex + s.inMutex = 1

variable {s t : State p c} {i : Fin p} {j : Fin c}

theorem Balanced.start (p c : Nat) : Balanced (start p c) where
  slots := by
    simp [ProducerConsumer.start, occupants, ProducerPc.fills, ConsumerPc.drains]
  mutex := by
    simp [ProducerConsumer.start, State.inMutex, occupants, ProducerPc.inMutex,
      ConsumerPc.inMutex]

/-- What the step of a process changes, whatever its role. -/
structure Moved (s t : State p c) (e : Process p c) : Prop where
  own : s.own e = t.own e + (s.statement e).count .waitOwn
  mutex : s.mutex + (s.statement e).count .postMutex =
    t.mutex + (s.statement e).count .waitMutex
  other : t.other e = s.other e + (s.statement e).count .postOther
  total : ∀ f g, t.total f g + s.share f g e = s.total f g + s.nextShare f g e

theorem total_producer (hproducer : t.producer = Function.update s.producer i (s.producer i).next)
    (hconsumer : t.consumer = s.consumer) (f : ProducerPc → Nat) (g : ConsumerPc → Nat) :
    t.total f g + s.share f g (.producer i) = s.total f g + s.nextShare f g (.producer i) := by
  have hsum := sum_update f s.producer i (s.producer i).next
  simp only [State.total, State.share, State.nextShare, hproducer, hconsumer]
  omega

theorem total_consumer (hproducer : t.producer = s.producer)
    (hconsumer : t.consumer = Function.update s.consumer j (s.consumer j).next)
    (f : ProducerPc → Nat) (g : ConsumerPc → Nat) :
    t.total f g + s.share f g (.consumer j) = s.total f g + s.nextShare f g (.consumer j) := by
  have hsum := sum_update g s.consumer j (s.consumer j).next
  simp only [State.total, State.share, State.nextShare, hproducer, hconsumer]
  omega

theorem produce_moved (h : produce s i = some t) : Moved s t (.producer i) := by
  cases hpc : s.producer i with
  | waitEmpty =>
      simp only [produce, hpc, Option.bind_eq_bind, Option.bind_eq_some_iff,
        semWait_eq_some, Option.some.injEq] at h
      obtain ⟨empty, hempty, rfl⟩ := h
      refine ⟨?_, ?_, ?_, total_producer (by rw [hpc]; rfl) rfl⟩ <;>
        simp [State.own, State.other, State.statement, hpc, hempty, ProducerPc.statement,
          Statement.count]
  | waitMutex =>
      simp only [produce, hpc, Option.bind_eq_bind, Option.bind_eq_some_iff,
        semWait_eq_some, Option.some.injEq] at h
      obtain ⟨mutex, hmutex, rfl⟩ := h
      refine ⟨?_, ?_, ?_, total_producer (by rw [hpc]; rfl) rfl⟩ <;>
        simp [State.own, State.other, State.statement, hpc, hmutex, ProducerPc.statement,
          Statement.count]
  | printf | postFull | postMutex | sleep =>
      simp only [produce, hpc, Option.some.injEq] at h
      subst h
      refine ⟨?_, ?_, ?_, total_producer (by rw [hpc]; rfl) rfl⟩ <;>
        simp [State.own, State.other, State.statement, hpc, semPost, ProducerPc.statement,
          Statement.count]

theorem consume_moved (h : consume s j = some t) : Moved s t (.consumer j) := by
  cases hpc : s.consumer j with
  | waitFull =>
      simp only [consume, hpc, Option.bind_eq_bind, Option.bind_eq_some_iff,
        semWait_eq_some, Option.some.injEq] at h
      obtain ⟨full, hfull, rfl⟩ := h
      refine ⟨?_, ?_, ?_, total_consumer rfl (by rw [hpc]; rfl)⟩ <;>
        simp [State.own, State.other, State.statement, hpc, hfull, ConsumerPc.statement,
          Statement.count]
  | waitMutex =>
      simp only [consume, hpc, Option.bind_eq_bind, Option.bind_eq_some_iff,
        semWait_eq_some, Option.some.injEq] at h
      obtain ⟨mutex, hmutex, rfl⟩ := h
      refine ⟨?_, ?_, ?_, total_consumer rfl (by rw [hpc]; rfl)⟩ <;>
        simp [State.own, State.other, State.statement, hpc, hmutex, ConsumerPc.statement,
          Statement.count]
  | printf | postMutex | postEmpty | sleep =>
      simp only [consume, hpc, Option.some.injEq] at h
      subst h
      refine ⟨?_, ?_, ?_, total_consumer rfl (by rw [hpc]; rfl)⟩ <;>
        simp [State.own, State.other, State.statement, hpc, semPost, ConsumerPc.statement,
          Statement.count]

theorem step_moved {e : Process p c} (h : step s e = some t) : Moved s t e := by
  cases e with
  | producer i => exact produce_moved h
  | consumer j => exact consume_moved h

/-- What a process has from its statement `first` on and up to its statement `last`. -/
theorem nextShare_eq (f : ProducerPc → Nat) (g : ConsumerPc → Nat) (first last : Statement)
    (hf : ∀ pc : ProducerPc, f pc.next + pc.statement.count last =
      f pc + pc.statement.count first)
    (hg : ∀ pc : ConsumerPc, g pc.next + pc.statement.count last =
      g pc + pc.statement.count first) (s : State p c) (e : Process p c) :
    s.nextShare f g e + (s.statement e).count last =
      s.share f g e + (s.statement e).count first := by
  cases e with
  | producer i => exact hf (s.producer i)
  | consumer j => exact hg (s.consumer j)

theorem own_add_other (s : State p c) (e : Process p c) :
    s.own e + s.other e = s.empty_buffer + s.full_buffer := by
  cases e with
  | producer i => rfl
  | consumer j => exact Nat.add_comm _ _

/-- What a move gives back is what it takes. -/
theorem Balanced.step {e : Process p c} (h : Balanced s)
    (hstep : ProducerConsumer.step s e = some t) : Balanced t := by
  have moved := step_moved hstep
  refine ⟨?_, ?_⟩
  · have htotal := moved.total (fun pc => pc.fills.toNat) (fun pc => pc.drains.toNat)
    have hshare := nextShare_eq (fun pc => pc.fills.toNat) (fun pc => pc.drains.toNat)
      .waitOwn .postOther (fun pc => (by cases pc <;> rfl)) (fun pc => (by cases pc <;> rfl)) s e
    have hslots := h.slots
    have hbefore := own_add_other s e
    have hafter := own_add_other t e
    have hown := moved.own
    have hother := moved.other
    simp only [State.total] at htotal
    simp only [occupants_eq_sum] at hslots ⊢
    omega
  · have htotal := moved.total (fun pc => pc.inMutex.toNat) (fun pc => pc.inMutex.toNat)
    have hshare := nextShare_eq (fun pc => pc.inMutex.toNat) (fun pc => pc.inMutex.toNat)
      .waitMutex .postMutex (fun pc => (by cases pc <;> rfl)) (fun pc => (by cases pc <;> rfl)) s e
    have hmutex := h.mutex
    have hmoved := moved.mutex
    simp only [State.total] at htotal
    simp only [State.inMutex, occupants_eq_sum] at hmutex ⊢
    omega

/-- A producer that cannot move waits at a semaphore without a unit. -/
theorem produce_blocked (h : produce s i = none) :
    (s.producer i = .waitEmpty ∧ s.empty_buffer = 0) ∨
      (s.producer i = .waitMutex ∧ s.mutex = 0) := by
  cases hpc : s.producer i with
  | waitEmpty =>
      cases hempty : s.empty_buffer with
      | zero => simp
      | succ v => simp [ProducerConsumer.produce, hpc, hempty, semWait] at h
  | waitMutex =>
      cases hmutex : s.mutex with
      | zero => simp
      | succ v => simp [ProducerConsumer.produce, hpc, hmutex, semWait] at h
  | printf | postFull | postMutex | sleep => simp [ProducerConsumer.produce, hpc] at h

/-- A consumer that cannot move waits at a semaphore without a unit. -/
theorem consume_blocked (h : consume s j = none) :
    (s.consumer j = .waitFull ∧ s.full_buffer = 0) ∨
      (s.consumer j = .waitMutex ∧ s.mutex = 0) := by
  cases hpc : s.consumer j with
  | waitFull =>
      cases hfull : s.full_buffer with
      | zero => simp
      | succ v => simp [ProducerConsumer.consume, hpc, hfull, semWait] at h
  | waitMutex =>
      cases hmutex : s.mutex with
      | zero => simp
      | succ v => simp [ProducerConsumer.consume, hpc, hmutex, semWait] at h
  | printf | postMutex | postEmpty | sleep => simp [ProducerConsumer.consume, hpc] at h

/-- Who holds the mutex can move, so the mutex is free when nobody can. -/
theorem Balanced.mutex_free (h : Balanced s) (hblocked : ∀ e, ProducerConsumer.step s e = none) :
    s.mutex = 1 := by
  have hnone : s.inMutex = 0 := by
    by_contra hne
    simp only [State.inMutex, Nat.add_eq_zero_iff, not_and_or, ← Nat.pos_iff_ne_zero] at hne
    cases hne with
    | inl hpos =>
        obtain ⟨i, hi⟩ := exists_occupant hpos
        cases produce_blocked (hblocked (.producer i)) with
        | inl hwait => simp [hwait, ProducerPc.inMutex] at hi
        | inr hwait => simp [hwait, ProducerPc.inMutex] at hi
    | inr hpos =>
        obtain ⟨j, hj⟩ := exists_occupant hpos
        cases consume_blocked (hblocked (.consumer j)) with
        | inl hwait => simp [hwait, ConsumerPc.inMutex] at hj
        | inr hwait => simp [hwait, ConsumerPc.inMutex] at hj
  have := h.mutex
  omega

/-- If nobody can move, the producers find no slot and the consumers no item,
although no slot is with any of them. -/
theorem Balanced.exists_step (h : Balanced s) (hp : 0 < p) (hc : 0 < c) :
    ∃ e t, ProducerConsumer.step s e = some t := by
  by_contra hnone
  have hblocked : ∀ e, ProducerConsumer.step s e = none := by
    intro e
    cases hstep : ProducerConsumer.step s e with
    | none => rfl
    | some t => exact absurd ⟨e, t, hstep⟩ hnone
  have hmutex := h.mutex_free hblocked
  have hproducer : ∀ i, s.producer i = .waitEmpty ∧ s.empty_buffer = 0 := by
    intro i
    cases produce_blocked (hblocked (.producer i)) with
    | inl hwait => exact hwait
    | inr hwait => omega
  have hconsumer : ∀ j, s.consumer j = .waitFull ∧ s.full_buffer = 0 := by
    intro j
    cases consume_blocked (hblocked (.consumer j)) with
    | inl hwait => exact hwait
    | inr hwait => omega
  have hfills : occupants ProducerPc.fills s.producer = 0 := by
    simp [occupants, hproducer, ProducerPc.fills]
  have hdrains : occupants ConsumerPc.drains s.consumer = 0 := by
    simp [occupants, hconsumer, ConsumerPc.drains]
  have hslots := h.slots
  rw [(hproducer ⟨0, hp⟩).2, (hconsumer ⟨0, hc⟩).2, hfills, hdrains] at hslots
  simp [bufferSize] at hslots

/-- In every state of every run the slots add up to the buffer, one process at most
holds the mutex, and some process can move. -/
theorem producers_and_consumers (p c : Nat) (hp : 0 < p) (hc : 0 < c)
    (es : List (Process p c)) (s : State p c) (h : run step (start p c) es = some s) :
    s.empty_buffer + s.full_buffer + occupants ProducerPc.fills s.producer +
        occupants ConsumerPc.drains s.consumer = bufferSize ∧
      s.full_buffer ≤ bufferSize ∧ s.inMutex ≤ 1 ∧ ∃ e t, step s e = some t := by
  have hbalanced := invariant_run (fun _ _ _ hs hstep => hs.step hstep) (Balanced.start p c) h
  refine ⟨hbalanced.slots, ?_, ?_, hbalanced.exists_step hp hc⟩
  · have := hbalanced.slots
    omega
  · have := hbalanced.mutex
    omega

/-- Two producers and a consumer: one item goes in while the other producer waits. -/
theorem producers_and_consumers_two_one :
    ∃ s, run step (start 2 1) [.producer 0, .producer 1, .producer 0, .producer 0,
        .producer 0, .consumer 0] = some s ∧
      s.inMutex ≤ 1 ∧ ∃ e t, step s e = some t := by
  have hmap : ((run step (start 2 1) [.producer 0, .producer 1, .producer 0, .producer 0,
      .producer 0, .consumer 0]).map fun s => s.empty_buffer) = some 8 := by decide +kernel
  obtain ⟨s, hs, -⟩ := Option.map_eq_some_iff.mp hmap
  obtain ⟨-, -, hmutex, hmove⟩ :=
    producers_and_consumers 2 1 (by decide) (by decide) _ s hs
  exact ⟨s, hs, hmutex, hmove⟩

end LinuxTraining.ProducerConsumer
