import LinuxTraining.Library.Execution
import LinuxTraining.Library.Threads

/-!
The two programs that share the memory object `Hello`: one writes its message into it, the
other prints what it finds there and removes the name. Any number of both may be started at any
time. They share nothing but the kernel's objects, each byte is stored and loaded by itself, and
`strcpy` may store its bytes in any order.
-/
namespace LinuxTraining.SharedMemory
open Execution Threads

/-- `message_0`: `Hello world` and a newline. -/
def message_0 : List UInt8 := [72, 101, 108, 108, 111, 32, 119, 111, 114, 108, 100, 10]

def stored : List UInt8 := message_0 ++ [0]

def mapped : Nat := 4096

/-- A memory object. Its bytes from `size` on are out of reach. -/
structure Object where
  size : Nat
  bytes : Nat → UInt8

namespace Object

def new : Object := ⟨0, fun _ => 0⟩

def ftruncate (x : Object) (size : Nat) : Object :=
  ⟨size, fun i => if i < x.size then x.bytes i else 0⟩

def load (x : Object) (i : Nat) : Option UInt8 := if i < x.size then some (x.bytes i) else none

def store (x : Object) (i : Nat) (b : UInt8) : Object :=
  { x with bytes := Function.update x.bytes i b }

end Object

/-- Where the writing program stands; an object is named by its place in the kernel's list, and
`none` stands for the -1 of a call that failed. -/
inductive WriterPc where
  | shmOpen
  | ftruncate (shm_fd : Option Nat)
  | mmap (shm_fd : Option Nat)
  | strcpy (ptr : Option Nat) (left : List Nat)
  | returned (ptr : Nat)
  | killed
  deriving DecidableEq

inductive ReaderPc where
  | shmOpen
  | mmap (shm_fd : Option Nat)
  | printf (ptr : Option Nat) (read : List UInt8)
  | shmUnlink (ptr : Nat) (text : List UInt8)
  | returned (ptr : Nat) (text : List UInt8)
  | killed
  deriving DecidableEq

inductive Process where
  | writer (pc : WriterPc)
  | reader (pc : ReaderPc)
  deriving DecidableEq

structure State where
  objects : List Object
  named : Option Nat
  processes : List Process

/-- A program is started; or a process takes a step, a call that may fail failing when it is
said to and `strcpy` storing the byte that is said; or a process is killed from outside. -/
inductive Event where
  | startWriter
  | startReader
  | run (k : Nat) (fails : Bool) (i : Nat)
  | kill (k : Nat)

def start : State := ⟨[], none, []⟩

/-- The objects, the one that the name stands for, and the writer after its next step. -/
def writerStep (objects : List Object) (named : Option Nat) (fails : Bool) (i : Nat) :
    WriterPc → Option (List Object × Option Nat × WriterPc)
  | .shmOpen =>
      if fails then some (objects, named, .ftruncate none)
      else
        match named with
        | some x => some (objects, named, .ftruncate (some x))
        | none =>
            some (objects ++ [.new], some objects.length, .ftruncate (some objects.length))
  | .ftruncate none => some (objects, named, .mmap none)
  | .ftruncate (some x) =>
      some (if fails then objects else objects.modify x fun o => o.ftruncate mapped,
        named, .mmap (some x))
  | .mmap shm_fd =>
      some (objects, named,
        .strcpy (if fails then none else shm_fd) (List.range stored.length))
  | .strcpy none _ => some (objects, named, .killed)
  | .strcpy (some x) [] => some (objects, named, .returned x)
  | .strcpy (some x) left =>
      if i ∈ left then
        match objects[x]?.bind fun o => o.load i, stored[i]? with
        | some _, some b =>
            some (objects.modify x fun o => o.store i b, named,
              .strcpy (some x) (left.erase i))
        | _, _ => some (objects, named, .killed)
      else none
  | .returned _ | .killed => none

/-- The same for the reader, which changes no object. -/
def readerStep (objects : List Object) (named : Option Nat) (fails : Bool) :
    ReaderPc → Option (Option Nat × ReaderPc)
  | .shmOpen => some (named, .mmap (if fails then none else named))
  | .mmap shm_fd => some (named, .printf (if fails then none else shm_fd) [])
  | .printf none _ => some (named, .killed)
  | .printf (some x) read =>
      match objects[x]?.bind fun o => o.load read.length with
      | none => some (named, .killed)
      | some b =>
          some (named,
            if b = 0 then .shmUnlink x read else .printf (some x) (read ++ [b]))
  | .shmUnlink x text => some (if fails then named else none, .returned x text)
  | .returned _ _ | .killed => none

def processStep (objects : List Object) (named : Option Nat) (fails : Bool) (i : Nat) :
    Process → Option (List Object × Option Nat × Process)
  | .writer pc =>
      (writerStep objects named fails i pc).map fun (objects, named, pc) =>
        (objects, named, .writer pc)
  | .reader pc =>
      (readerStep objects named fails pc).map fun (named, pc) => (objects, named, .reader pc)

def Process.killed : Process → Process
  | .writer _ => .writer .killed
  | .reader _ => .reader .killed

def step (s : State) : Event → Option State
  | .startWriter => some { s with processes := s.processes ++ [.writer .shmOpen] }
  | .startReader => some { s with processes := s.processes ++ [.reader .shmOpen] }
  | .run k fails i =>
      match s.processes[k]? with
      | none => none
      | some p =>
          (processStep s.objects s.named fails i p).map fun (objects, named, p') =>
            ⟨objects, named, s.processes.set k p'⟩
  | .kill k =>
      match s.processes[k]? with
      | none => none
      | some p => some { s with processes := s.processes.set k p.killed }

def Process.printed : Process → Option (Nat × List UInt8)
  | .reader (.shmUnlink x text) | .reader (.returned x text) => some (x, text)
  | _ => none

structure Object.Clean (o : Object) : Prop where
  size : o.size ≤ mapped
  bytes : ∀ i, o.bytes i = 0 ∨ stored[i]? = some (o.bytes i)

def Object.Has (o : Object) (i : Nat) : Prop := i < o.size ∧ stored[i]? = some (o.bytes i)

def Object.Grows (o o' : Object) : Prop :=
  o.Clean → o'.Clean ∧ ∀ i, o.Has i → o'.Has i

def Grow (objects objects' : List Object) : Prop :=
  (∀ o ∈ objects, o.Clean) → (∀ o ∈ objects', o.Clean) ∧
    ∀ (x : Nat) (o : Object), objects[x]? = some o →
      ∃ o', objects'[x]? = some o' ∧ ∀ i, o.Has i → o'.Has i

variable {objects objects' : List Object} {named named' : Option Nat} {fails : Bool} {i : Nat}

theorem Grow.refl : Grow objects objects :=
  fun h => ⟨h, fun _ o ho => ⟨o, ho, fun _ hi => hi⟩⟩

theorem Grow.new : Grow objects (objects ++ [.new]) := by
  refine fun h => ⟨forall_created h ⟨Nat.zero_le _, fun _ => .inl rfl⟩, fun x o ho => ?_⟩
  refine ⟨o, ?_, fun _ hi => hi⟩
  rw [List.getElem?_append_left (List.getElem?_eq_some_iff.mp ho).1]
  exact ho

theorem Grow.modify {f : Object → Object} (x : Nat) (hf : ∀ o : Object, o.Grows (f o)) :
    Grow objects (objects.modify x f) := by
  refine fun h => ⟨fun o ho => ?_, fun j o ho => ?_⟩
  · obtain ⟨j, hj⟩ := List.mem_iff_getElem?.mp ho
    rw [List.getElem?_modify] at hj
    obtain ⟨o', ho', heq⟩ := Option.map_eq_some_iff.mp hj
    have hclean := h o' (List.mem_of_getElem? ho')
    split at heq
    · exact heq ▸ (hf o' hclean).1
    · exact heq ▸ hclean
  · rw [List.getElem?_modify, ho]
    refine ⟨_, rfl, fun i hi => ?_⟩
    split
    · exact (hf o (h o (List.mem_of_getElem? ho))).2 i hi
    · exact hi

theorem grows_ftruncate (o : Object) : o.Grows (o.ftruncate mapped) := by
  refine fun h => ⟨⟨Nat.le_refl _, fun i => ?_⟩, fun i hi => ?_⟩
  · simp only [Object.ftruncate]
    split
    · exact h.bytes i
    · exact .inl rfl
  · refine ⟨Nat.lt_of_lt_of_le hi.1 h.size, ?_⟩
    simp only [Object.ftruncate, if_pos hi.1]
    exact hi.2

theorem grows_store (o : Object) {b : UInt8} (hb : stored[i]? = some b) :
    o.Grows (o.store i b) := by
  refine fun h => ⟨⟨h.size, fun j => ?_⟩, fun j hj => ⟨hj.1, ?_⟩⟩
  · simp only [Object.store]
    by_cases hji : j = i
    · subst hji
      rw [Function.update_self]
      exact .inr hb
    · rw [Function.update_of_ne hji]
      exact h.bytes j
  · simp only [Object.store]
    by_cases hji : j = i
    · subst hji
      rw [Function.update_self]
      exact hb
    · rw [Function.update_of_ne hji]
      exact hj.2

theorem writerStep_grow {pc pc' : WriterPc}
    (h : writerStep objects named fails i pc = some (objects', named', pc')) :
    Grow objects objects' := by
  cases pc with
  | shmOpen =>
      simp only [writerStep] at h
      split at h
      · cases h
        exact Grow.refl
      · split at h <;> cases h
        · exact Grow.refl
        · exact Grow.new
  | ftruncate shm_fd =>
      cases shm_fd with
      | none =>
          cases h
          exact Grow.refl
      | some x =>
          cases fails with
          | true =>
              cases h
              exact Grow.refl
          | false =>
              cases h
              exact Grow.modify x grows_ftruncate
  | mmap shm_fd =>
      cases h
      exact Grow.refl
  | strcpy ptr left =>
      cases ptr with
      | none =>
          cases h
          exact Grow.refl
      | some x =>
          cases left with
          | nil =>
              cases h
              exact Grow.refl
          | cons j left =>
              simp only [writerStep] at h
              split at h
              · split at h
                · rename_i b _ hb
                  cases h
                  exact Grow.modify x fun o => grows_store o hb
                · cases h
                  exact Grow.refl
              · cases h
  | returned x => cases h
  | killed => cases h

def HasAt (objects : List Object) (x j : Nat) : Prop := ∃ o, objects[x]? = some o ∧ o.Has j

def Complete (objects : List Object) (x : Nat) : Prop :=
  ∀ j, j < stored.length → HasAt objects x j

def Process.Sound (objects : List Object) : Process → Prop
  | .writer (.strcpy (some x) left) => ∀ j, j < stored.length → j ∉ left → HasAt objects x j
  | .writer (.returned x) => Complete objects x
  | .reader (.printf (some _) read) => read <+: message_0
  | .reader (.shmUnlink _ text) | .reader (.returned _ text) => text <+: message_0
  | _ => True

theorem HasAt.grow (hgrow : Grow objects objects') (clean : ∀ o ∈ objects, o.Clean) {x j : Nat}
    (h : HasAt objects x j) : HasAt objects' x j := by
  obtain ⟨o, ho, hj⟩ := h
  obtain ⟨o', ho', hkeeps⟩ := (hgrow clean).2 x o ho
  exact ⟨o', ho', hkeeps j hj⟩

theorem Process.Sound.grow (hgrow : Grow objects objects') (clean : ∀ o ∈ objects, o.Clean)
    {p : Process} (h : p.Sound objects) : p.Sound objects' := by
  cases p with
  | writer pc =>
      cases pc with
      | strcpy ptr left =>
          cases ptr with
          | none => trivial
          | some x => exact fun j hj hleft => (h j hj hleft).grow hgrow clean
      | returned x => exact fun j hj => HasAt.grow hgrow clean (h j hj)
      | shmOpen | ftruncate shm_fd | mmap shm_fd | killed => trivial
  | reader pc =>
      cases pc with
      | printf ptr read =>
          cases ptr with
          | none => trivial
          | some x => exact h
      | shmUnlink x text | returned x text => exact h
      | shmOpen | mmap shm_fd | killed => trivial

theorem Process.Sound.killed (p : Process) : p.killed.Sound objects := by
  cases p <;> trivial

/-- The byte that is read next is the next one of the message, unless it is zero. -/
theorem read_next {read : List UInt8} {b : UInt8} (h : read <+: message_0)
    (hb : stored[read.length]? = some b) :
    (b = 0 ∧ read = message_0) ∨ (b ≠ 0 ∧ read ++ [b] <+: message_0) := by
  obtain ⟨rest, hrest⟩ := h
  have hnext : stored[read.length]? = (rest ++ [0])[0]? := by
    rw [stored, ← hrest, List.append_assoc, List.getElem?_append_right (Nat.le_refl _),
      Nat.sub_self]
  rw [hnext] at hb
  cases rest with
  | nil =>
      cases hb
      exact .inl ⟨rfl, by rw [← hrest, List.append_nil]⟩
  | cons c rest =>
      cases hb
      refine .inr ⟨?_, rest, by rw [← hrest, List.append_assoc, List.singleton_append]⟩
      have hall : ∀ d ∈ message_0, d ≠ 0 := by simp [message_0]
      exact hall b (by rw [← hrest]; simp)

theorem writerStep_sound {pc pc' : WriterPc} (clean : ∀ o ∈ objects, o.Clean)
    (sound : (Process.writer pc).Sound objects)
    (h : writerStep objects named fails i pc = some (objects', named', pc')) :
    (Process.writer pc').Sound objects' := by
  have hgrow := writerStep_grow h
  cases pc with
  | shmOpen =>
      simp only [writerStep] at h
      split at h
      · cases h
        trivial
      · split at h <;> cases h <;> trivial
  | ftruncate shm_fd =>
      cases shm_fd with
      | none =>
          cases h
          trivial
      | some x =>
          cases h
          trivial
  | mmap shm_fd =>
      cases h
      cases fails with
      | true => trivial
      | false =>
          cases shm_fd with
          | none => trivial
          | some x => exact fun j hj hleft => absurd (List.mem_range.mpr hj) hleft
  | strcpy ptr left =>
      cases ptr with
      | none =>
          cases h
          trivial
      | some x =>
          cases left with
          | nil =>
              cases h
              exact fun j hj => sound j hj List.not_mem_nil
          | cons l left =>
              simp only [writerStep] at h
              split at h
              · split at h
                · rename_i b hload hb
                  obtain ⟨o, ho, hsize⟩ := Option.bind_eq_some_iff.mp hload
                  cases h
                  intro j hj hleft
                  by_cases hji : j = i
                  · subst hji
                    refine ⟨o.store j b, ?_, ?_, ?_⟩
                    · rw [List.getElem?_modify, ho]
                      simp
                    · by_contra hout
                      simp [Object.load, show ¬ j < o.size from hout] at hsize
                    · simpa [Object.store] using hb
                  · refine (sound j hj fun hin => hleft ?_).grow hgrow clean
                    exact (List.mem_erase_of_ne hji).mpr hin
                · cases h
                  trivial
              · cases h
  | returned x => cases h
  | killed => cases h

theorem readerStep_sound {pc pc' : ReaderPc} (clean : ∀ o ∈ objects, o.Clean)
    (sound : (Process.reader pc).Sound objects)
    (h : readerStep objects named fails pc = some (named', pc')) :
    (Process.reader pc').Sound objects := by
  cases pc with
  | shmOpen =>
      cases h
      trivial
  | mmap shm_fd =>
      cases h
      cases fails with
      | true => trivial
      | false =>
          cases shm_fd with
          | none => trivial
          | some x => exact List.nil_prefix
  | printf ptr read =>
      cases ptr with
      | none =>
          cases h
          trivial
      | some x =>
          simp only [readerStep] at h
          split at h
          · cases h
            trivial
          · rename_i b hload
            obtain ⟨o, ho, hb⟩ := Option.bind_eq_some_iff.mp hload
            cases h
            by_cases hzero : b = 0
            · rw [if_pos hzero]
              exact sound
            · rw [if_neg hzero]
              simp only [Object.load, Option.ite_none_right_eq_some, Option.some.injEq] at hb
              have hbytes := (clean o (List.mem_of_getElem? ho)).bytes read.length
              rw [hb.2] at hbytes
              cases read_next sound (hbytes.resolve_left hzero) with
              | inl hend => exact absurd hend.1 hzero
              | inr hnext => exact hnext.2
  | shmUnlink x text =>
      cases h
      exact sound
  | returned x text => cases h
  | killed => cases h

/-- A reader that comes to the end of a complete object has read the whole message. -/
theorem readerStep_complete {pc pc' : ReaderPc} {x : Nat} (complete : Complete objects x)
    (sound : (Process.reader pc).Sound objects)
    (before : ∀ text, (Process.reader pc).printed = some (x, text) → text = message_0)
    (h : readerStep objects named fails pc = some (named', pc')) :
    ∀ text, (Process.reader pc').printed = some (x, text) → text = message_0 := by
  intro text htext
  cases pc with
  | shmOpen | mmap shm_fd =>
      cases h
      cases htext
  | printf ptr read =>
      cases ptr with
      | none =>
          cases h
          cases htext
      | some y =>
          simp only [readerStep] at h
          split at h
          · cases h
            cases htext
          · rename_i b hload
            obtain ⟨o, ho, hb⟩ := Option.bind_eq_some_iff.mp hload
            cases h
            by_cases hzero : b = 0
            · rw [if_pos hzero] at htext
              cases htext
              subst hzero
              simp only [Object.load, Option.ite_none_right_eq_some, Option.some.injEq] at hb
              have hlength : text.length ≤ message_0.length := List.IsPrefix.length_le sound
              obtain ⟨o', ho', hhas⟩ := complete text.length (Nat.lt_succ_of_le hlength)
              cases ho.symm.trans ho'
              rw [Object.Has, hb.2] at hhas
              cases read_next sound hhas.2 with
              | inl hend => exact hend.2
              | inr hnext => exact absurd rfl hnext.1
            · rw [if_neg hzero] at htext
              cases htext
  | shmUnlink y text' =>
      cases h
      exact before text htext
  | returned y text' => cases h
  | killed => cases h

structure Kept (s : State) : Prop where
  clean : ∀ o ∈ s.objects, o.Clean
  sound : ∀ p ∈ s.processes, p.Sound s.objects

/-- The object `x` is complete, and process `k` prints the whole message if it prints from it. -/
structure Whole (x k : Nat) (s : State) : Prop extends Kept s where
  complete : Complete s.objects x
  whole : ∀ p text, s.processes[k]? = some p → p.printed = some (x, text) → text = message_0

variable {s t : State} {e : Event}

theorem processStep_grow {p p' : Process}
    (h : processStep objects named fails i p = some (objects', named', p')) :
    Grow objects objects' := by
  cases p with
  | writer pc =>
      obtain ⟨⟨_, _, _⟩, hstep, heq⟩ := Option.map_eq_some_iff.mp h
      cases heq
      exact writerStep_grow hstep
  | reader pc =>
      obtain ⟨⟨_, _⟩, hstep, heq⟩ := Option.map_eq_some_iff.mp h
      cases heq
      exact Grow.refl

theorem processStep_sound {p p' : Process} (clean : ∀ o ∈ objects, o.Clean)
    (sound : p.Sound objects)
    (h : processStep objects named fails i p = some (objects', named', p')) :
    p'.Sound objects' := by
  cases p with
  | writer pc =>
      obtain ⟨⟨_, _, _⟩, hstep, heq⟩ := Option.map_eq_some_iff.mp h
      cases heq
      exact writerStep_sound clean sound hstep
  | reader pc =>
      obtain ⟨⟨_, _⟩, hstep, heq⟩ := Option.map_eq_some_iff.mp h
      cases heq
      exact readerStep_sound clean sound hstep

theorem processStep_complete {p p' : Process} {x : Nat} (complete : Complete objects x)
    (sound : p.Sound objects) (before : ∀ text, p.printed = some (x, text) → text = message_0)
    (h : processStep objects named fails i p = some (objects', named', p')) :
    ∀ text, p'.printed = some (x, text) → text = message_0 := by
  cases p with
  | writer pc =>
      obtain ⟨⟨_, _, _⟩, hstep, heq⟩ := Option.map_eq_some_iff.mp h
      cases heq
      intro text htext
      cases htext
  | reader pc =>
      obtain ⟨⟨_, _⟩, hstep, heq⟩ := Option.map_eq_some_iff.mp h
      cases heq
      exact readerStep_complete complete sound before hstep

theorem printed_killed (p : Process) : p.killed.printed = none := by
  cases p <;> rfl

theorem Kept.step (kept : Kept s) (h : SharedMemory.step s e = some t) : Kept t := by
  cases e with
  | startWriter | startReader =>
      cases h
      exact ⟨kept.clean, forall_created kept.sound trivial⟩
  | kill k =>
      simp only [SharedMemory.step] at h
      split at h
      · cases h
      · cases h
        exact ⟨kept.clean, forall_moved kept.sound (Process.Sound.killed _)⟩
  | run k fails i =>
      simp only [SharedMemory.step] at h
      split at h
      · cases h
      · rename_i p hp
        obtain ⟨⟨objects, named, p'⟩, hstep, rfl⟩ := Option.map_eq_some_iff.mp h
        have hgrow := processStep_grow hstep
        refine ⟨(hgrow kept.clean).1, forall_moved (fun q hq => ?_) ?_⟩
        · exact (kept.sound q hq).grow hgrow kept.clean
        · exact processStep_sound kept.clean (kept.sound p (List.mem_of_getElem? hp)) hstep

theorem Whole.step {x k : Nat} (whole : Whole x k s) (h : SharedMemory.step s e = some t) :
    Whole x k t := by
  have kept := whole.toKept.step h
  cases e with
  | startWriter | startReader =>
      cases h
      refine ⟨kept, whole.complete, fun p text hp htext => ?_⟩
      simp only [List.getElem?_append] at hp
      split at hp
      · exact whole.whole p text hp htext
      · have hnew := List.mem_of_getElem? hp
        rw [List.mem_singleton] at hnew
        subst hnew
        cases htext
  | kill j =>
      simp only [SharedMemory.step] at h
      split at h
      · cases h
      · rename_i q hq
        cases h
        refine ⟨kept, whole.complete, fun p text hp htext => ?_⟩
        cases (getElem?_set_iff hq).mp hp with
        | inl hself =>
            rw [hself.2, printed_killed] at htext
            cases htext
        | inr hother => exact whole.whole p text hother.2 htext
  | run j fails i =>
      simp only [SharedMemory.step] at h
      split at h
      · cases h
      · rename_i q hq
        obtain ⟨⟨objects, named, q'⟩, hstep, rfl⟩ := Option.map_eq_some_iff.mp h
        have hgrow := processStep_grow hstep
        refine ⟨kept, fun i hi => (whole.complete i hi).grow hgrow whole.clean,
          fun p text hp htext => ?_⟩
        cases (getElem?_set_iff hq).mp hp with
        | inl hself =>
            obtain ⟨rfl, rfl⟩ := hself
            exact processStep_complete whole.complete (whole.sound q (List.mem_of_getElem? hq))
              (fun text => whole.whole q text hq) hstep text htext
        | inr hother => exact whole.whole p text hother.2 htext

/-- Whatever a reader prints is a beginning of the message, in every run. It is the whole
message when the reader comes to its end after some writer of the same object has returned. -/
theorem reader_prints_beginning (as bs : List Event) (s t : State) (k x : Nat) (p : Process)
    (text : List UInt8) (hs : run step start as = some s) (ht : run step s bs = some t)
    (hp : t.processes[k]? = some p) (hprinted : p.printed = some (x, text)) :
    text <+: message_0 ∧
      (.writer (.returned x) ∈ s.processes →
        (∀ q, s.processes[k]? = some q → q.printed = none) → text = message_0) := by
  have kept : Kept s := invariant_run (fun _ _ _ kept hstep => kept.step hstep)
    ⟨fun _ ho => absurd ho List.not_mem_nil, fun _ hp => absurd hp List.not_mem_nil⟩ hs
  have last : Kept t := invariant_run (fun _ _ _ kept hstep => kept.step hstep) kept ht
  refine ⟨?_, fun hwriter hbefore => ?_⟩
  · have sound := last.sound p (List.mem_of_getElem? hp)
    cases p with
    | writer pc => cases hprinted
    | reader pc =>
        cases pc with
        | shmUnlink y text' | returned y text' =>
            cases hprinted
            exact sound
        | shmOpen | mmap shm_fd | printf ptr read | killed => cases hprinted
  · have first : Whole x k s := by
      refine ⟨kept, kept.sound _ hwriter, fun q text hq htext => ?_⟩
      rw [hbefore q hq] at htext
      cases htext
    have whole := invariant_run (fun _ _ _ whole hstep => Whole.step whole hstep) first ht
    exact whole.whole p text hp hprinted

def fiveBytesFirst : List Event :=
  [.startWriter, .run 0 false 0, .run 0 false 0, .run 0 false 0] ++
    (List.range 5).map (.run 0 false) ++
    [.startReader, .startReader, .run 1 false 0, .run 1 false 0, .run 2 false 0, .run 2 false 0] ++
    List.replicate 7 (.run 1 false 0) ++
    [12, 11, 10, 9, 8, 7, 6, 5].map (.run 0 false) ++ [.run 0 false 0]

def secondReader : List Event := List.replicate 13 (.run 2 false 0)

theorem reader_prints_beginning_five_bytes :
    ∃ s t, run step start fiveBytesFirst = some s ∧ run step s secondReader = some t ∧
      t.processes = [.writer (.returned 0), .reader (.returned 0 [72, 101, 108, 108, 111]),
        .reader (.shmUnlink 0 message_0)] ∧
      [72, 101, 108, 108, 111] <+: message_0 ∧ t.named = none := by
  have hfirst : (run step start fiveBytesFirst).map (fun s => s.processes) =
      some [.writer (.returned 0), .reader (.returned 0 [72, 101, 108, 108, 111]),
        .reader (.printf (some 0) [])] := by decide +kernel
  have hall : (run step start (fiveBytesFirst ++ secondReader)).map
      (fun t => (t.processes, t.named)) =
      some ([.writer (.returned 0), .reader (.returned 0 [72, 101, 108, 108, 111]),
        .reader (.shmUnlink 0 message_0)], none) := by decide +kernel
  obtain ⟨s, hs, hprocesses⟩ := Option.map_eq_some_iff.mp hfirst
  obtain ⟨t, hrun, hends⟩ := Option.map_eq_some_iff.mp hall
  obtain ⟨m, hm, ht⟩ := run_append.mp hrun
  cases hs.symm.trans hm
  simp only [Prod.mk.injEq] at hends
  refine ⟨s, t, hs, ht, hends.1, ?_, hends.2⟩
  exact (reader_prints_beginning fiveBytesFirst secondReader s t 1 0 _ _ hs ht
    (by rw [hends.1]; rfl) rfl).1

end LinuxTraining.SharedMemory
