import LinuxTraining.Library.Execution
import LinuxTraining.Library.Semaphore
import LinuxTraining.Library.Threads

/-!
The program with a named semaphore. Any number of instances of it may be started at any time,
and they share what the kernel has under the name. The semaphore begins with one unit, and no
instance ever posts it.
-/
namespace LinuxTraining.NamedSemaphore
open Execution Semaphore Threads

/-- `POSIX_SEM_NAMED` without the slash, as bytes. -/
def posixSemNamed : List UInt8 := [110, 97, 109, 101, 100, 95, 97, 112, 112]

/-- The eight bytes of a pointer in memory, lowest first. -/
def pointerBytes (address : Nat) : List UInt8 :=
  (List.range 8).map fun i => (address / 256 ^ i).toUInt8

/-- The name that `sem_unlink` takes the bytes for: slashes in front do not count. -/
def nameOf (bytes : List UInt8) : List UInt8 :=
  (bytes.takeWhile fun b => b ≠ 0).dropWhile fun b => b = 47

inductive Pc where
  | create
  | reopen
  | getvalue
  | clockGettime
  | timedwait
  | getchar
  | close
  | unlink
  | returned (ret : Int)
  deriving DecidableEq

/-- An instance: the semaphore it has opened, the bytes of the variable `sem` and of what comes
after it in memory, and, read by no instance, whether it has come past `sem_timedwait`. -/
structure Instance where
  pc : Pc
  sem : Option Nat
  memory : List UInt8
  passed : Bool

structure State where
  semaphores : List Nat
  named : Option Nat
  instances : List Instance

/-- A new instance, with the address at which it will map the semaphore and what comes after
the variable; or an instance takes a step, its call failing when it is said to. -/
inductive Event where
  | start (address : Nat) (after : List UInt8)
  | run (k : Nat) (fails : Bool)
  deriving DecidableEq

def start : State := ⟨[], none, []⟩

namespace Instance

def goto (w : Instance) (pc : Pc) : Instance := { w with pc }

end Instance

/-- What an instance leaves of the kernel and of itself in its next step. A call that can lock
the semaphore does not fail, and `sem_open` for a name without a semaphore does. -/
def instanceStep (semaphores : List Nat) (named : Option Nat) (w : Instance) (fails : Bool) :
    Option (List Nat × Option Nat × Instance) :=
  match w.pc with
  | .create =>
      if fails then some (semaphores, named, w.goto (.returned (-1)))
      else
        match named with
        | none => some (semaphores ++ [1], some semaphores.length,
            { w with pc := .getvalue, sem := some semaphores.length })
        | some _ => some (semaphores, named, w.goto .reopen)
  | .reopen =>
      if fails then some (semaphores, named, w.goto (.returned (-1)))
      else
        match named with
        | none => some (semaphores, named, w.goto (.returned (-1)))
        | some sem => some (semaphores, named, { w with pc := .getvalue, sem := some sem })
  | .getvalue => some (semaphores, named, w.goto .clockGettime)
  | .clockGettime =>
      some (semaphores, named, w.goto (if fails then .returned (-1) else .timedwait))
  | .timedwait => do
      let sem ← w.sem
      let value ← semaphores[sem]?
      match semWait value with
      | none => if fails then some (semaphores, named, w.goto (.returned (-1))) else none
      | some value =>
          some (semaphores.set sem value, named, { w with pc := .getchar, passed := true })
  | .getchar => some (semaphores, named, w.goto .close)
  | .close => some (semaphores, named, w.goto (if fails then .returned (-1) else .unlink))
  | .unlink =>
      -- the address of the variable is passed where a name is expected
      some (semaphores,
        if nameOf w.memory = posixSemNamed then none else named,
        w.goto (.returned 0))
  | .returned _ => none

def step (s : State) : Event → Option State
  | .start address after =>
      some { s with
        instances := s.instances ++ [⟨.create, none, pointerBytes address ++ after, false⟩] }
  | .run k fails =>
      match s.instances[k]? with
      | none => none
      | some w =>
          (instanceStep s.semaphores s.named w fails).map fun (semaphores, named, w') =>
            ⟨semaphores, named, s.instances.set k w'⟩

/-- The addresses that a process can map end below `2 ^ 47`. -/
def Mapped : Event → Prop
  | .start address _ => address < 2 ^ 47
  | .run _ _ => True

instance : (e : Event) → Decidable (Mapped e)
  | .start address _ => inferInstanceAs (Decidable (address < 2 ^ 47))
  | .run _ _ => inferInstanceAs (Decidable True)

def State.passed (s : State) : Nat := s.instances.countP Instance.passed

variable {s t : State} {w w' : Instance} {k : Nat} {fails : Bool}

theorem length_takeWhile_zero (before after : List UInt8) :
    ((before ++ 0 :: after).takeWhile fun b => b ≠ 0).length ≤ before.length := by
  induction before with
  | nil => simp
  | cons b before ih =>
      rw [List.cons_append, List.takeWhile_cons]
      split
      · exact Nat.succ_le_succ ih
      · exact Nat.zero_le _

/-- A pointer below `2 ^ 47` ends in zeros, so the text that begins at it has six bytes at
most. -/
theorem nameOf_pointer {address : Nat} (h : address < 2 ^ 47) (after : List UInt8) :
    nameOf (pointerBytes address ++ after) ≠ posixSemNamed := by
  have hzero : (address / 256 ^ 6).toUInt8 = 0 := by
    rw [Nat.div_eq_of_lt (by omega)]
    rfl
  have hbytes : pointerBytes address ++ after =
      ((List.range 6).map fun i => (address / 256 ^ i).toUInt8) ++
        0 :: ((address / 256 ^ 7).toUInt8 :: after) := by
    rw [← hzero]
    simp [pointerBytes, List.range, List.range.loop]
  intro hname
  have hlength := congrArg List.length hname
  have hfront := (List.dropWhile_sublist (fun b : UInt8 => b = 47)
    (l := (pointerBytes address ++ after).takeWhile fun b => b ≠ 0)).length_le
  have hsix := length_takeWhile_zero ((List.range 6).map fun i => (address / 256 ^ i).toUInt8)
    ((address / 256 ^ 7).toUInt8 :: after)
  rw [← hbytes, List.length_map, List.length_range] at hsix
  have hnine : posixSemNamed.length = 9 := rfl
  rw [nameOf] at hlength
  omega

def Pc.past : Pc → Option Bool
  | .create | .reopen | .getvalue | .clockGettime | .timedwait => some false
  | .getchar | .close | .unlink => some true
  | .returned ret => if ret = 0 then some true else none

structure Instance.Sound (w : Instance) : Prop where
  past : ∀ b, w.pc.past = some b → w.passed = b
  opened : ∀ sem, w.sem = some sem → sem = 0
  memory : nameOf w.memory ≠ posixSemNamed

/-- Before the first `sem_open` there is no semaphore. From then on there is one, and its unit
is in it or with the one instance that has passed. -/
inductive OneUnit (semaphores : List Nat) (named : Option Nat) (passed : Nat) : Prop where
  | nothing (empty : semaphores = []) (unnamed : named = none) (none_passed : passed = 0)
  | one (value : Nat) (single : semaphores = [value]) (kept : named = some 0)
      (balance : value + passed = 1)

structure Kept (s : State) : Prop where
  unit : OneUnit s.semaphores s.named s.passed
  sound : ∀ w ∈ s.instances, w.Sound

variable {semaphores semaphores' : List Nat} {named named' : Option Nat} {n : Nat}

theorem Instance.Sound.goto (h : w.Sound) {pc : Pc} (hpast : ∀ b, pc.past = some b → w.passed = b) :
    (w.goto pc).Sound where
  past := hpast
  opened := h.opened
  memory := h.memory

/-- One step of an instance; `n` instances have passed before. -/
theorem instanceStep_kept (hunit : OneUnit semaphores named n) (h : w.Sound)
    (hstep : instanceStep semaphores named w fails = some (semaphores', named', w')) :
    w'.Sound ∧ ∃ m, m + w.passed.toNat = n + w'.passed.toNat ∧
      OneUnit semaphores' named' m := by
  unfold instanceStep at hstep
  cases hpc : w.pc with
  | create =>
      have hpassed := h.past false (by rw [hpc]; rfl)
      simp only [hpc] at hstep
      split at hstep
      · cases hstep
        exact ⟨h.goto fun b hb => by simp [Pc.past] at hb, n, rfl, hunit⟩
      · cases hunit with
        | nothing hempty hnamed hzero =>
            subst hempty hnamed
            cases hstep
            refine ⟨⟨?_, ?_, h.memory⟩, n, rfl, .one 1 rfl rfl (by omega)⟩
            · intro b hb
              cases hb
              exact hpassed
            · intro sem hsem
              cases hsem
              rfl
        | one value hsingle hnamed hbalance =>
            subst hsingle hnamed
            cases hstep
            refine ⟨h.goto fun b hb => ?_, n, rfl, .one value rfl rfl hbalance⟩
            cases hb
            exact hpassed
  | reopen =>
      have hpassed := h.past false (by rw [hpc]; rfl)
      simp only [hpc] at hstep
      split at hstep
      · cases hstep
        exact ⟨h.goto fun b hb => by simp [Pc.past] at hb, n, rfl, hunit⟩
      · cases hunit with
        | nothing hempty hnamed hzero =>
            subst hempty hnamed
            cases hstep
            exact ⟨h.goto fun b hb => by simp [Pc.past] at hb, n, rfl, .nothing rfl rfl hzero⟩
        | one value hsingle hnamed hbalance =>
            subst hsingle hnamed
            cases hstep
            refine ⟨⟨?_, ?_, h.memory⟩, n, rfl, .one value rfl rfl hbalance⟩
            · intro b hb
              cases hb
              exact hpassed
            · intro sem hsem
              cases hsem
              rfl
  | timedwait =>
      have hpassed := h.past false (by rw [hpc]; rfl)
      simp only [hpc, Option.bind_eq_bind, Option.bind_eq_some_iff] at hstep
      obtain ⟨sem, hsem, value, hvalue, hstep⟩ := hstep
      have hzero := h.opened sem hsem
      subst hzero
      cases hunit with
      | nothing hempty hnamed hnone =>
          subst hempty
          cases hvalue
      | one v hsingle hnamed hbalance =>
          subst hsingle
          cases hvalue
          split at hstep
          · split at hstep
            · cases hstep
              exact ⟨h.goto fun b hb => by simp [Pc.past] at hb, n, rfl,
                .one value rfl hnamed hbalance⟩
            · cases hstep
          · rename_i rest hwait
            cases hstep
            have hv := semWait_eq_some.mp hwait
            refine ⟨⟨?_, h.opened, h.memory⟩, n + 1, ?_, .one rest rfl hnamed (by omega)⟩
            · intro b hb
              cases hb
              rfl
            · rw [hpassed]
              rfl
  | getvalue =>
      have hpassed := h.past false (by rw [hpc]; rfl)
      simp only [hpc] at hstep
      cases hstep
      refine ⟨h.goto fun b hb => ?_, n, rfl, hunit⟩
      cases hb
      exact hpassed
  | clockGettime =>
      have hpassed := h.past false (by rw [hpc]; rfl)
      simp only [hpc] at hstep
      cases hstep
      refine ⟨h.goto fun b hb => ?_, n, rfl, hunit⟩
      cases fails with
      | true => simp [Pc.past] at hb
      | false =>
          cases hb
          exact hpassed
  | getchar =>
      have hpassed := h.past true (by rw [hpc]; rfl)
      simp only [hpc] at hstep
      cases hstep
      refine ⟨h.goto fun b hb => ?_, n, rfl, hunit⟩
      cases hb
      exact hpassed
  | close =>
      have hpassed := h.past true (by rw [hpc]; rfl)
      simp only [hpc] at hstep
      cases hstep
      refine ⟨h.goto fun b hb => ?_, n, rfl, hunit⟩
      cases fails with
      | true => simp [Pc.past] at hb
      | false =>
          cases hb
          exact hpassed
  | unlink =>
      have hpassed := h.past true (by rw [hpc]; rfl)
      simp only [hpc, if_neg h.memory] at hstep
      cases hstep
      refine ⟨h.goto fun b hb => ?_, n, rfl, hunit⟩
      simp only [Pc.past, if_true, Option.some.injEq] at hb
      rw [hpassed, hb]
  | returned ret => simp [hpc] at hstep

theorem Kept.start : Kept start where
  unit := .nothing rfl rfl rfl
  sound := fun _ h => absurd h List.not_mem_nil

theorem Kept.step {e : Event} (kept : Kept s) (hmapped : Mapped e)
    (h : NamedSemaphore.step s e = some t) : Kept t := by
  cases e with
  | start address after =>
      cases h
      refine ⟨?_, forall_created kept.sound ⟨?_, ?_, nameOf_pointer hmapped after⟩⟩
      · simpa [State.passed] using kept.unit
      · intro b hb
        cases hb
        rfl
      · intro sem hsem
        cases hsem
  | run k fails =>
      cases hw : s.instances[k]? with
      | none => simp [NamedSemaphore.step, hw] at h
      | some w =>
          simp only [NamedSemaphore.step, hw] at h
          obtain ⟨⟨semaphores, named, w'⟩, hstep, rfl⟩ := Option.map_eq_some_iff.mp h
          obtain ⟨hsound, m, hm, hunit⟩ :=
            instanceStep_kept kept.unit (kept.sound w (List.mem_of_getElem? hw)) hstep
          have hcount := countP_moved Instance.passed hw w'
          have hpassed : m = State.passed ⟨semaphores, named, s.instances.set k w'⟩ := by
            simp only [State.passed] at hm ⊢
            omega
          rw [hpassed] at hunit
          exact ⟨hunit, forall_moved kept.sound hsound⟩

/-- In every run one instance at most comes past `sem_timedwait`, however many are started and
even after the one has ended: the unit never comes back, and the name is never removed. -/
theorem one_instance_passes (es : List Event) (s : State)
    (hmapped : Along step (fun _ e => Mapped e) start es) (h : run step start es = some s) :
    OneUnit s.semaphores s.named s.passed ∧ s.passed ≤ 1 ∧
      s.instances.countP (fun w => w.pc = .returned 0) ≤ s.passed := by
  have kept := invariant_along (fun _ _ _ hs he hstep => Kept.step hs he hstep) Kept.start
    hmapped h
  refine ⟨kept.unit, ?_, ?_⟩
  · cases kept.unit with
    | nothing _ _ hnone => omega
    | one value _ _ hbalance => omega
  · refine List.countP_mono_left fun w hw hreturned => ?_
    exact (kept.sound w hw).past true (by simp [of_decide_eq_true hreturned, Pc.past])

def twoInstances : List Event :=
  [.start 4096 [], .run 0 false, .run 0 false, .run 0 false, .run 0 false, .run 0 false,
    .run 0 false, .run 0 false, .start 8192 [], .run 1 false, .run 1 false, .run 1 false,
    .run 1 false, .run 1 true]

theorem one_instance_passes_of_two :
    ∃ s, run step start twoInstances = some s ∧ s.passed ≤ 1 ∧
      s.instances.map Instance.pc = [.returned 0, .returned (-1)] := by
  have hends : (run step start twoInstances).map (fun s => s.instances.map Instance.pc) =
      some [.returned 0, .returned (-1)] := by decide +kernel
  obtain ⟨s, hs, hpcs⟩ := Option.map_eq_some_iff.mp hends
  have hall := one_instance_passes twoInstances s (by decide +kernel) hs
  exact ⟨s, hs, hall.2.1, hpcs⟩

end LinuxTraining.NamedSemaphore
