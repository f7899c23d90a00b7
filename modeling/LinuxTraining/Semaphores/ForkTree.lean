import LinuxTraining.Semaphores.ProducerConsumer

/-!
`main` of the producer/consumer program. Its two calls of `fork` follow one another, so the
first child calls the second one too, and its child is a producer like itself. Which processes
there are depends on the calls that succeed; what they print is read off the buffer.
-/
namespace LinuxTraining.ProducerConsumer
open Execution Semaphore

inductive Line where
  | created
  | completed
  | items (taken_slots : Nat)
  deriving DecidableEq

variable {p c : Nat}

def printed (s : State p c) : Process p c → List Line
  | .producer i => if s.producer i = .printf then [.created] else []
  | .consumer j => if s.consumer j = .printf then [.completed] else []

/-- With a slot that it has not printed about. -/
def ProducerPc.unprinted : ProducerPc → Bool
  | .waitMutex | .printf => true
  | _ => false

def ProducerPc.unposted : ProducerPc → Bool
  | .postFull => true
  | _ => false

def ConsumerPc.unprinted : ConsumerPc → Bool
  | .waitMutex | .printf => true
  | _ => false

def ConsumerPc.unposted : ConsumerPc → Bool
  | .postMutex | .postEmpty => true
  | _ => false

/-- The semaphores and the lines `Producer created` and `Consumer completed` printed so far. -/
structure Counted (s : State p c) (created completed : Nat) : Prop where
  items : s.full_buffer + completed + occupants ProducerPc.unposted s.producer +
    occupants ConsumerPc.unprinted s.consumer = created
  slots : s.empty_buffer + created + occupants ProducerPc.unprinted s.producer +
    occupants ConsumerPc.unposted s.consumer = bufferSize + completed

variable {s t : State p c} {i : Fin p} {n m : Nat}

theorem Counted.start (p c : Nat) : Counted (start p c) 0 0 where
  items := by
    simp [ProducerConsumer.start, occupants, ProducerPc.unposted, ConsumerPc.unprinted]
  slots := by
    simp [ProducerConsumer.start, occupants, ProducerPc.unprinted, ConsumerPc.unposted]

def Process.line : Process p c → Line
  | .producer _ => .created
  | .consumer _ => .completed

theorem printed_eq (s : State p c) (e : Process p c) :
    printed s e = List.replicate ((s.statement e).count .printf) e.line := by
  cases e with
  | producer i =>
      simp only [printed, State.statement]
      cases s.producer i <;> rfl
  | consumer j =>
      simp only [printed, State.statement]
      cases s.consumer j <;> rfl

/-- A unit of its own semaphore is with the process until it prints, and then as one of the
other semaphore until it posts that. -/
theorem Counted.step {e : Process p c} (h : Counted s n m)
    (hstep : ProducerConsumer.step s e = some t) :
    Counted t (n + (printed s e).count .created) (m + (printed s e).count .completed) := by
  have moved := step_moved hstep
  have hown := moved.own
  have hother := moved.other
  have hitems := moved.total (fun pc => pc.unposted.toNat) (fun pc => pc.unprinted.toNat)
  have hslots := moved.total (fun pc => pc.unprinted.toNat) (fun pc => pc.unposted.toNat)
  have hunprinted := nextShare_eq (fun pc => pc.unprinted.toNat) (fun pc => pc.unprinted.toNat)
    .waitOwn .printf (fun pc => (by cases pc <;> rfl)) (fun pc => (by cases pc <;> rfl)) s e
  have hunposted := nextShare_eq (fun pc => pc.unposted.toNat) (fun pc => pc.unposted.toNat)
    .printf .postOther (fun pc => (by cases pc <;> rfl)) (fun pc => (by cases pc <;> rfl)) s e
  obtain ⟨hcreated, hcompleted⟩ := h
  simp only [occupants_eq_sum] at hcreated hcompleted
  rw [printed_eq]
  cases e with
  | producer i | consumer j =>
      simp only [State.own, State.other, State.total, State.share, State.nextShare]
        at hown hother hitems hslots hunprinted hunposted
      refine ⟨?_, ?_⟩ <;>
        simp only [Process.line, List.count_replicate, occupants_eq_sum] <;> simp <;> omega

def ProducerPc.left : ProducerPc → Nat
  | .waitEmpty => 0
  | .waitMutex => 5
  | .printf => 4
  | .postFull => 3
  | .postMutex => 2
  | .sleep => 1

def loopsLeft (s : State p c) : Nat := s.empty_buffer * 6 + ∑ i, (s.producer i).left

theorem produce_loopsLeft (h : produce s i = some t) :
    1 + loopsLeft t = loopsLeft s := by
  have moved := produce_moved h
  have htotal := moved.total ProducerPc.left fun _ => 0
  have hown := moved.own
  have hleft : (s.producer i).next.left + 1 =
      (s.producer i).left + (s.producer i).statement.count .waitOwn * 6 := by
    cases s.producer i <;> rfl
  simp only [State.own, State.statement, State.total, State.share, State.nextShare,
    Finset.sum_const_zero] at htotal hown
  simp only [loopsLeft]
  omega

/-- Which calls of `fork` succeed: the two of `main`, and the one that the first child makes. -/
structure Forks where
  producer : Bool
  consumer : Bool
  ofProducer : Bool

namespace Forks

/-- The processes in which `producer` is 0: the first child, and its own child. -/
def producers (f : Forks) : Nat := if f.producer then 1 + f.ofProducer.toNat else 0

/-- The child of the second call in `main`. In the child of the same call in the first child
`producer` is 0 as well, which is tested first. -/
def consumers (f : Forks) : Nat := f.consumer.toNat

end Forks

inductive MainPc where
  | forkProducer
  | forkConsumer
  | sleep
  | getvalue
  | printf (taken_slots : Nat)
  deriving DecidableEq

/-- The first child, before and after the call of `fork` that it makes itself. -/
inductive ChildPc where
  | unborn
  | fork
  | forked
  deriving DecidableEq

def MainPc.forksLeft : MainPc → Nat
  | .forkProducer => 3
  | .forkConsumer => 1
  | _ => 0

def ChildPc.forksLeft : ChildPc → Nat
  | .fork => 1
  | _ => 0

variable {f : Forks}

/-- The whole program. The loops of processes that have not begun stand at their first
statement. -/
structure Program (f : Forks) where
  main : MainPc
  child : ChildPc
  shared : State f.producers f.consumers
  output : List Line

inductive Party (f : Forks) where
  | main
  | child
  | loop (e : Process f.producers f.consumers)

namespace Program

def start (f : Forks) : Program f where
  main := .forkProducer
  child := .unborn
  shared := ProducerConsumer.start f.producers f.consumers
  output := []

def inLoop (s : Program f) : Process f.producers f.consumers → Bool
  | .producer _ => s.child = .forked
  | .consumer _ => s.main ≠ .forkProducer ∧ s.main ≠ .forkConsumer

def step (s : Program f) : Party f → Option (Program f)
  | .main =>
      match s.main with
      | .forkProducer =>
          some { s with
            main := .forkConsumer
            child := if f.producer then .fork else .unborn }
      | .forkConsumer => some { s with main := .sleep }
      | .sleep => some { s with main := .getvalue }
      | .getvalue => some { s with main := .printf s.shared.full_buffer }
      | .printf taken_slots =>
          some { s with main := .sleep, output := s.output ++ [.items taken_slots] }
  | .child =>
      match s.child with
      | .fork => some { s with child := .forked }
      | .unborn | .forked => none
  | .loop e =>
      if s.inLoop e then do
        let shared ← ProducerConsumer.step s.shared e
        some { s with shared, output := s.output ++ printed s.shared e }
      else none

/-- A step of any process but those of the loop in which `main` reports. -/
def busy (s : Program f) : Party f → Nat
  | .main => if s.main = .forkProducer ∨ s.main = .forkConsumer then 1 else 0
  | .child | .loop _ => 1

structure Kept (s : Program f) : Prop where
  balanced : Balanced s.shared
  counted : Counted s.shared (s.output.count .created) (s.output.count .completed)
  reports : ∀ n, .items n ∈ s.output → n ≤ bufferSize
  report : ∀ n, s.main = .printf n → n ≤ bufferSize
  unborn : s.child = .unborn → s.main = .forkProducer ∨ f.producer = false
  idle : f.producers = 0 → s.shared = ProducerConsumer.start f.producers f.consumers

variable {s t : Program f} {e : Process f.producers f.consumers}

theorem loop_eq_some : step s (.loop e) = some t ↔ s.inLoop e ∧
    ∃ u, ProducerConsumer.step s.shared e = some u ∧
      t = { s with shared := u, output := s.output ++ printed s.shared e } := by
  simp only [step]
  split
  · rename_i hloop
    simp only [hloop, true_and, Option.bind_eq_bind, Option.bind_eq_some_iff, Option.some.injEq,
      eq_comm (b := t)]
  · rename_i hloop
    simp [hloop]

theorem count_reports (output : List Line) (n : Nat) :
    (output ++ [Line.items n]).count Line.created = output.count Line.created ∧
      (output ++ [Line.items n]).count Line.completed = output.count Line.completed := by
  simp [List.count_append]

theorem Kept.start (f : Forks) : Kept (start f) where
  balanced := Balanced.start _ _
  counted := Counted.start _ _
  reports := fun n h => by cases h
  report := fun n h => by cases h
  unborn := fun _ => .inl rfl
  idle := fun _ => rfl

theorem Kept.main (kept : Kept s) (h : step s .main = some t) : Kept t := by
  cases hmain : s.main with
  | forkProducer =>
      simp only [step, hmain, Option.some.injEq] at h
      subst h
      refine ⟨kept.balanced, kept.counted, kept.reports, fun n hn => (by cases hn), ?_, kept.idle⟩
      intro hunborn
      cases hfork : f.producer with
      | true => simp [hfork] at hunborn
      | false => exact .inr rfl
  | forkConsumer =>
      simp only [step, hmain, Option.some.injEq] at h
      subst h
      refine ⟨kept.balanced, kept.counted, kept.reports, fun n hn => (by cases hn), ?_, kept.idle⟩
      intro hunborn
      exact .inr ((kept.unborn hunborn).resolve_left (by simp [hmain]))
  | sleep =>
      simp only [step, hmain, Option.some.injEq] at h
      subst h
      refine ⟨kept.balanced, kept.counted, kept.reports, fun n hn => (by cases hn), ?_, kept.idle⟩
      intro hunborn
      exact .inr ((kept.unborn hunborn).resolve_left (by simp [hmain]))
  | getvalue =>
      simp only [step, hmain, Option.some.injEq] at h
      subst h
      refine ⟨kept.balanced, kept.counted, kept.reports, ?_, ?_, kept.idle⟩
      · intro n hn
        cases hn
        have := kept.balanced.slots
        omega
      · intro hunborn
        exact .inr ((kept.unborn hunborn).resolve_left (by simp [hmain]))
  | printf taken_slots =>
      simp only [step, hmain, Option.some.injEq] at h
      subst h
      obtain ⟨hcreated, hcompleted⟩ := count_reports s.output taken_slots
      refine ⟨kept.balanced, ?_, ?_, fun n hn => (by cases hn), ?_, kept.idle⟩
      · rw [hcreated, hcompleted]
        exact kept.counted
      · intro n hn
        cases List.mem_append.mp hn with
        | inl hold => exact kept.reports n hold
        | inr hnew =>
            cases List.mem_singleton.mp hnew
            exact kept.report _ hmain
      · intro hunborn
        exact .inr ((kept.unborn hunborn).resolve_left (by simp [hmain]))

/-- Without a producer there is no item, and nobody comes past its first wait. -/
theorem start_stuck (hp : p = 0) (e : Process p c) :
    ProducerConsumer.step (ProducerConsumer.start p c) e = none := by
  cases e with
  | producer i =>
      subst hp
      exact i.elim0
  | consumer j => rfl

theorem Kept.loop (kept : Kept s) (h : step s (.loop e) = some t) : Kept t := by
  obtain ⟨-, u, hu, rfl⟩ := loop_eq_some.mp h
  have hcounted := kept.counted.step hu
  rw [← List.count_append, ← List.count_append] at hcounted
  refine ⟨kept.balanced.step hu, hcounted, ?_, kept.report, kept.unborn, ?_⟩
  · intro n hn
    cases List.mem_append.mp hn with
    | inl hold => exact kept.reports n hold
    | inr hnew =>
        cases e with
        | producer i =>
            simp only [printed] at hnew
            split at hnew <;> simp at hnew
        | consumer j =>
            simp only [printed] at hnew
            split at hnew <;> simp at hnew
  · intro hp
    rw [kept.idle hp, start_stuck hp] at hu
    cases hu

theorem Kept.step {a : Party f} (kept : Kept s) (h : step s a = some t) : Kept t := by
  cases a with
  | main => exact kept.main h
  | child =>
      cases hchild : s.child with
      | fork =>
          simp only [Program.step, hchild, Option.some.injEq] at h
          subst h
          exact ⟨kept.balanced, kept.counted, kept.reports, kept.report,
            fun hunborn => (by cases hunborn), kept.idle⟩
      | unborn | forked => simp [Program.step, hchild] at h
  | loop e => exact kept.loop h

/-- In every run the producers have printed their line at least as often as the consumer, and
at most ten lines more. What `main` reports lies between 0 and 10. -/
theorem printed_within_buffer (f : Forks) (as : List (Party f)) (s : Program f)
    (h : run step (start f) as = some s) :
    s.output.count .completed ≤ s.output.count .created ∧
      s.output.count .created ≤ s.output.count .completed + bufferSize ∧
      ∀ n, .items n ∈ s.output → n ≤ bufferSize := by
  have kept := invariant_run (fun _ _ _ hs hstep => Kept.step hs hstep) (Kept.start f) h
  refine ⟨?_, ?_, kept.reports⟩
  · have := kept.counted.items
    omega
  · have := kept.counted.slots
    omega

def allForked : Forks := ⟨true, true, true⟩

def twoForOne : List (Party allForked) :=
  let first := .loop (.producer ⟨0, by decide⟩)
  let second := .loop (.producer ⟨1, by decide⟩)
  let consumer := .loop (.consumer ⟨0, by decide⟩)
  [.main, .child, second, first, second, second, second, second, first, first, first, first,
    .main, consumer, consumer, consumer, .main, .main, .main]

theorem printed_within_buffer_two_for_one :
    ∃ s, run step (start allForked) twoForOne = some s ∧
      s.output = [.created, .created, .completed, .items 1] ∧
      s.output.count .created ≤ s.output.count .completed + bufferSize := by
  have hends : (run step (start allForked) twoForOne).map output =
      some [.created, .created, .completed, .items 1] := by decide +kernel
  obtain ⟨s, hs, houtput⟩ := Option.map_eq_some_iff.mp hends
  exact ⟨s, hs, houtput, (printed_within_buffer allForked twoForOne s hs).2.1⟩

def left (s : Program f) : Nat :=
  loopsLeft s.shared + s.main.forksLeft + s.child.forksLeft

/-- Without a producer, or without a consumer, the work left only shrinks. -/
theorem left_pays (hnone : f.producers = 0 ∨ f.consumers = 0) {a : Party f} (kept : Kept s)
    (h : step s a = some t) : busy s a + left t ≤ left s := by
  cases a with
  | main =>
      cases hmain : s.main with
      | forkProducer =>
          simp only [step, hmain, Option.some.injEq] at h
          subst h
          have hchild : (if f.producer then ChildPc.fork else .unborn).forksLeft ≤ 1 := by
            cases f.producer <;> simp [ChildPc.forksLeft]
          simp only [busy, left, hmain, MainPc.forksLeft, true_or, if_true]
          omega
      | forkConsumer =>
          simp only [step, hmain, Option.some.injEq] at h
          subst h
          simp only [busy, left, hmain, MainPc.forksLeft, or_true, if_true]
          omega
      | sleep | getvalue | printf taken_slots =>
          simp only [step, hmain, Option.some.injEq] at h
          subst h
          simp [busy, left, hmain, MainPc.forksLeft]
  | child =>
      cases hchild : s.child with
      | fork =>
          simp only [step, hchild, Option.some.injEq] at h
          subst h
          simp only [busy, left, hchild, ChildPc.forksLeft]
          omega
      | unborn | forked => simp [step, hchild] at h
  | loop e =>
      obtain ⟨-, u, hu, rfl⟩ := loop_eq_some.mp h
      cases e with
      | producer i =>
          have hloops := produce_loopsLeft hu
          simp only [busy, left]
          omega
      | consumer j =>
          cases hnone with
          | inl hp =>
              rw [kept.idle hp, start_stuck hp] at hu
              cases hu
          | inr hc => exact (Fin.cast hc j).elim0

/-- With a producer and a consumer, one of the processes that are no report can always go
on. -/
theorem exists_busy (kept : Kept s) (hp : 0 < f.producers) (hc : 0 < f.consumers) :
    ∃ a t, step s a = some t ∧ 1 ≤ busy s a := by
  have hproducer : f.producer = true := by
    cases hfork : f.producer with
    | true => rfl
    | false => simp [Forks.producers, hfork] at hp
  cases hmain : s.main with
  | forkProducer => exact ⟨.main, _, by simp only [step, hmain]; rfl, by simp [busy, hmain]⟩
  | forkConsumer => exact ⟨.main, _, by simp only [step, hmain]; rfl, by simp [busy, hmain]⟩
  | sleep | getvalue | printf taken_slots =>
      cases hchild : s.child with
      | unborn =>
          have := kept.unborn hchild
          simp [hmain, hproducer] at this
      | fork => exact ⟨.child, _, by simp only [step, hchild]; rfl, Nat.le_refl 1⟩
      | forked =>
          obtain ⟨e, u, hu⟩ := kept.balanced.exists_step hp hc
          have hloop : s.inLoop e = true := by
            cases e with
            | producer i => simp [inLoop, hchild]
            | consumer j => simp [inLoop, hmain]
          exact ⟨.loop e, _, loop_eq_some.mpr ⟨hloop, u, hu, rfl⟩, Nat.le_refl 1⟩

/-- The children of `main` come to a standstill, and their own with them, exactly when one of
the two calls of `fork` in `main` fails. The third one does not matter. -/
theorem standstill_iff (f : Forks) :
    (∃ bound, ∀ as s, run step (start f) as = some s → tally step busy (start f) as ≤ bound) ↔
      f.producer = false ∨ f.consumer = false := by
  have hzero : f.producers = 0 ∨ f.consumers = 0 ↔ f.producer = false ∨ f.consumer = false := by
    cases hproducer : f.producer <;> cases hconsumer : f.consumer <;>
      simp [Forks.producers, Forks.consumers, hproducer, hconsumer]
  rw [← hzero]
  constructor
  · intro hbound
    by_contra hboth
    rw [not_or] at hboth
    obtain ⟨bound, hbound⟩ := hbound
    have hmore : ∃ as s, run step (start f) as = some s ∧
        bound + 1 ≤ tally step busy (start f) as := by
      refine exists_tally ?_ ?_ (Kept.start f) (bound + 1)
      · exact fun _ _ _ kept hstep => kept.step hstep
      · exact fun _ kept =>
          exists_busy kept (Nat.pos_of_ne_zero hboth.1) (Nat.pos_of_ne_zero hboth.2)
    obtain ⟨as, s, hs, hmore⟩ := hmore
    have := hbound as s hs
    omega
  · intro hnone
    refine ⟨left (start f), fun as s hs => ?_⟩
    have hpays : tally step busy (start f) as + left s ≤ left (start f) := by
      refine tally_le ?_ ?_ (Kept.start f) (along_true _ as) hs
      · exact fun _ _ _ kept _ hstep => kept.step hstep
      · exact fun _ _ _ kept _ hstep => left_pays hnone kept hstep
    omega

end Program

end LinuxTraining.ProducerConsumer
