import LinuxTraining.Library.Descriptors
import LinuxTraining.Library.Execution

/-!
The program with the pipe: the parent is to write three messages that the child prints. Either
process may be killed from outside at any time, and the child stopped; both make the kernel send
`SIGCHLD` to the parent. Where the shell leaves the first two descriptors free the pipe takes
them, and what a process prints goes into the pipe when it exits.
-/
namespace LinuxTraining.PipeChild
open Execution Descriptors

inductive File where
  | inherited (n : Nat)
  | readEnd
  | writeEnd
  deriving DecidableEq

def msgSize : Nat := 16

/-- The messages are the same text three times: `hello, world #1`. -/
def msg : List UInt8 := [104, 101, 108, 108, 111, 44, 32, 119, 111, 114, 108, 100, 32, 35, 49, 0]

def ofText (text : String) : List UInt8 := text.toList.map fun c => UInt8.ofNat c.toNat

/-- What the program prints; `msg` after a read of these bytes. -/
inductive Line where
  | pipeUnsuccessful
  | child
  | parent
  | closeFailed
  | forkUnsuccessful
  | readFailed
  | endOfFile
  | msg (read : List UInt8)
  | terminated
  deriving DecidableEq

/-- The bytes that are printed. A message is printed up to its terminator. -/
def Line.bytes : Line → List UInt8
  | .pipeUnsuccessful => ofText "Pipe unccessfully\n"
  | .child => ofText "I am a child\n"
  | .parent => ofText "I am a Parent\n"
  | .closeFailed => ofText "Close fds[0] failed!!\n"
  | .forkUnsuccessful => ofText "Fork() unsuccessfully!!!\n"
  | .readFailed => ofText "Read() failed!!\n"
  | .endOfFile => ofText "Pipe end of file\n"
  | .msg read => ofText "Msg: " ++ read.takeWhile (fun b => b ≠ 0) ++ ofText "\n"
  | .terminated => ofText "Child process termainated.."

inductive ParentPc where
  | pipe
  | fork
  | signal
  | greet
  | close
  | write (left : Nat)
  | closeAgain
  | forever
  deriving DecidableEq

/-- The statements of `func`, the handler of `SIGCHLD`. -/
inductive FuncPc where
  | wait
  | printf
  deriving DecidableEq

inductive ChildPc where
  | greet
  | read
  deriving DecidableEq

/-- `stdout` is what the process has printed. -/
structure Parent where
  pc : ParentPc
  table : Table File
  stdout : List Line
  installed : Bool
  pending : Bool
  func : Option FuncPc

structure Child where
  pc : ChildPc
  table : Table File
  stdout : List Line

/-- A process that has ended or has been killed is gone, and its table with it. `output` is what
has been printed by both, in order. -/
structure State where
  fds : Nat × Nat
  pipe : List UInt8
  parent : Option Parent
  child : Option Child
  output : List Line

/-- A process takes a step; the parent's call fails when it is said to, and a file that is not
the pipe gives the bytes that are said. -/
inductive Event where
  | parent (fails : Bool)
  | child (answer : List UInt8)
  | killParent
  | killChild
  | stopChild
  deriving DecidableEq

def start (shell : Table Nat) : State where
  fds := (0, 0)
  pipe := []
  parent := some ⟨.pipe, shell.map (Option.map .inherited), [], false, false, none⟩
  child := none
  output := []

def holds (file : File) (table : Table File) : Bool := table.contains (some file)

def State.holds (s : State) (file : File) : Bool :=
  (s.parent.any fun p => PipeChild.holds file p.table) ||
    s.child.any fun c => PipeChild.holds file c.table

def Parent.printf (p : Parent) (line : Line) : Parent := { p with stdout := p.stdout ++ [line] }

@[simp] theorem Parent.printf_table (p : Parent) (line : Line) :
    (p.printf line).table = p.table := rfl

@[simp] theorem Parent.printf_pc (p : Parent) (line : Line) : (p.printf line).pc = p.pc := rfl

def State.printed (s : State) (line : Line) : State := { s with output := s.output ++ [line] }

/-- The end of a process that exits. The pipe is no terminal, so what is printed there is written
now. -/
def State.exits (s : State) (table : Table File) (stdout : List Line) : State :=
  match lookup table 1 with
  | some .writeEnd => { s with pipe := s.pipe ++ stdout.flatMap Line.bytes }
  | some (.inherited _) | some .readEnd | none => s

/-- `write(fds[1], msg, MSG_SIZE)`, which blocks when the pipe has no room. A parent without a
reader is killed by `SIGPIPE`. -/
def write (s : State) (p : Parent) (left : Nat) : Option State :=
  match lookup p.table s.fds.2 with
  | some .writeEnd =>
      if s.holds .readEnd then
        if s.pipe.length + msgSize ≤ 65536 then
          some { s with pipe := s.pipe ++ msg, parent := some { p with pc := .write left } }
        else none
      else some { s with parent := none }
  | some (.inherited _) | some .readEnd | none =>
      some { s with parent := some { p with pc := .write left } }

def close (s : State) (p : Parent) (pc : ParentPc) : State :=
  match lookup p.table s.fds.2 with
  | some _ => { s with parent := some { p with pc, table := Descriptors.close p.table s.fds.2 } }
  | none => { s with parent := some ({ p with pc }.printf .closeFailed) }.printed .closeFailed

def parentStep (s : State) (p : Parent) (fails : Bool) : Option State :=
  match p.pc with
  | .pipe =>
      if fails then
        let p := p.printf .pipeUnsuccessful
        some (({ s with parent := none }.printed .pipeUnsuccessful).exits p.table p.stdout)
      else
        let readTable := opened .readEnd p.table
        some { s with
          fds := (lowestFree p.table, lowestFree readTable)
          parent := some { p with pc := .fork, table := opened .writeEnd readTable } }
  | .fork =>
      if fails then
        let p := p.printf .forkUnsuccessful
        some (({ s with parent := none }.printed .forkUnsuccessful).exits p.table p.stdout)
      else
        some { s with
          parent := some { p with pc := .signal }
          child := some ⟨.greet, p.table, p.stdout⟩ }
  | .signal => some { s with parent := some { p with pc := .greet, installed := true } }
  | .greet =>
      some ({ s with parent := some ({ p with pc := .close }.printf .parent) }.printed .parent)
  | .close => some (close s p (.write 3))
  | .write 0 => some { s with parent := some { p with pc := .closeAgain } }
  | .write (left + 1) => write s p left
  | .closeAgain => some (close s p .forever)
  | .forever => some s

/-- The handler's next statement; `wait` blocks as long as there is a child. -/
def funcStep (s : State) (p : Parent) : FuncPc → Option State
  | .wait =>
      match s.child with
      | some _ => none
      | none => some { s with parent := some { p with func := some .printf } }
  | .printf =>
      some ({ s with
        parent := some ({ p with func := none }.printf .terminated) }.printed .terminated)

/-- The kernel tells the parent, which ignores it without a handler. -/
def Parent.notified (p : Parent) : Parent := { p with pending := p.installed }

def State.childGone (s : State) : State :=
  { s with
    parent := s.parent.map Parent.notified
    child := none }

def State.childExits (s : State) (c : Child) (line : Line) : State :=
  (s.childGone.printed line).exits c.table (c.stdout ++ [line])

/-- The next statement of the child. A read of the empty pipe blocks while somebody could write
to it. -/
def childStep (s : State) (c : Child) (answer : List UInt8) : Option State :=
  match c.pc with
  | .greet =>
      some ({ s with
        child := some { c with pc := .read, stdout := c.stdout ++ [Line.child] } }.printed .child)
  | .read =>
      match lookup c.table s.fds.1 with
      | some .readEnd =>
          if s.pipe ≠ [] then
            let line : Line := .msg (s.pipe.take msgSize)
            some ({ s with
              pipe := s.pipe.drop msgSize
              child := some { c with stdout := c.stdout ++ [line] } }.printed line)
          else if s.holds .writeEnd then none
          else some (s.childExits c .endOfFile)
      | some (.inherited _) =>
          if answer ≠ [] then
            let line : Line := .msg (answer.take msgSize)
            some ({ s with child := some { c with stdout := c.stdout ++ [line] } }.printed line)
          else some (s.childExits c .endOfFile)
      | some .writeEnd | none => some (s.childExits c .readFailed)

def step (s : State) : Event → Option State
  | .parent fails =>
      match s.parent with
      | none => none
      | some p =>
          match p.func with
          | some pc => funcStep s p pc
          | none =>
              if p.pending then
                some { s with parent := some { p with pending := false, func := some .wait } }
              else parentStep s p fails
  | .child answer =>
      match s.child with
      | none => none
      | some c => childStep s c answer
  | .killParent => some { s with parent := none }
  | .killChild => s.child.map fun _ => s.childGone
  | .stopChild => s.child.map fun _ => { s with parent := s.parent.map Parent.notified }

def ParentPc.open : ParentPc → Option Bool
  | .pipe => none
  | .fork | .signal | .greet | .close => some true
  | .write _ | .closeAgain | .forever => some false

def Line.fromPipe : Line → Bool
  | .readFailed | .endOfFile | .msg _ => true
  | _ => false

/-- Before there is a pipe, one of the first two descriptors is taken; and so the end for writing
is not where the parent prints if it exits. -/
structure Parent.Sound (fds : Nat × Nat) (p : Parent) : Prop where
  before : p.pc = .pipe → (lookup p.table 0 ≠ none ∨ lookup p.table 1 ≠ none) ∧
    ∀ fd, lookup p.table fd ≠ some .writeEnd
  apart : p.pc = .fork → lookup p.table 1 ≠ some .writeEnd
  both : p.pc.open = some true →
    lookup p.table fds.1 = some .readEnd ∧ lookup p.table fds.2 = some .writeEnd
  closed : p.pc.open = some false → lookup p.table fds.2 = none

structure Kept (s : State) : Prop where
  empty : s.pipe = []
  parent : ∀ p, s.parent = some p → p.Sound s.fds
  childless : ∀ p, s.parent = some p → p.pc = .pipe → s.child = none
  child : ∀ c, s.child = some c →
    lookup c.table s.fds.1 = some .readEnd ∧ lookup c.table s.fds.2 = some .writeEnd
  silent : ∀ line ∈ s.output, line.fromPipe = false

variable {s t : State} {p : Parent} {c : Child} {e : Event} {fails : Bool}

theorem lookup_pipe (table : Table File) :
    lookup (opened .writeEnd (opened .readEnd table)) (lowestFree table) = some .readEnd ∧
      lookup (opened .writeEnd (opened .readEnd table)) (lowestFree (opened .readEnd table)) =
        some File.writeEnd :=
  ⟨lookup_opened_of_some (lookup_opened table .readEnd), lookup_opened _ _⟩

/-- The end for writing is not opened at descriptor 1 when that or the one before is taken. -/
theorem lookup_pipe_stdout {table : Table File}
    (hopen : lookup table 0 ≠ none ∨ lookup table 1 ≠ none)
    (hnone : ∀ fd, lookup table fd ≠ some .writeEnd) :
    lookup (opened .writeEnd (opened .readEnd table)) 1 ≠ some .writeEnd := by
  cases hone : lookup table 1 with
  | some file =>
      rw [lookup_opened_of_some (lookup_opened_of_some hone)]
      exact hone ▸ hnone 1
  | none =>
      obtain ⟨file, hzero⟩ := Option.ne_none_iff_exists'.mp (hopen.resolve_right (absurd hone))
      have hle := lowestFree_le hone
      have hne := ne_lowestFree hzero
      have hlowest : lowestFree table = 1 := by omega
      have hread := lookup_opened table .readEnd
      rw [hlowest] at hread
      rw [lookup_opened_of_some hread]
      exact nofun

theorem State.exits_of_ne {table : Table File} (h : lookup table 1 ≠ some .writeEnd)
    (stdout : List Line) : s.exits table stdout = s := by
  unfold State.exits
  split
  · rename_i hlookup
    exact absurd hlookup h
  · rfl
  · rfl
  · rfl

/-- The child could write to the pipe itself. -/
theorem Kept.held (kept : Kept s) (hc : s.child = some c) : s.holds .writeEnd = true := by
  have hmem := mem_of_lookup (kept.child c hc).2
  simp [State.holds, hc, PipeChild.holds, hmem]

theorem Kept.blocked (kept : Kept s) (hc : s.child = some c) (hread : c.pc = .read)
    (answer : List UInt8) : childStep s c answer = none := by
  simp only [childStep, hread, (kept.child c hc).1, kept.empty, kept.held hc, ne_eq,
    not_true_eq_false, if_false, if_true]

theorem Kept.start {shell : Table Nat} (h : lookup shell 0 ≠ none ∨ lookup shell 1 ≠ none) :
    Kept (start shell) where
  empty := rfl
  parent := by
    intro p hp
    cases hp
    refine ⟨fun _ => ⟨?_, fun fd => ?_⟩, nofun, nofun, nofun⟩
    · simpa [lookup_map] using h
    · rw [lookup_map]
      cases lookup shell fd <;> exact nofun
  childless := fun _ _ _ => rfl
  child := fun c hc => by cases hc
  silent := fun line h => absurd h List.not_mem_nil

/-- A step of the parent that leaves the pipe and the child alone. -/
theorem Kept.moved (kept : Kept s) {q : Parent} (sound : q.Sound s.fds)
    (childless : q.pc = .pipe → s.child = none) : Kept { s with parent := some q } where
  empty := kept.empty
  parent := by
    intro r hr
    cases hr
    exact sound
  childless := by
    intro r hr
    cases hr
    exact childless
  child := kept.child
  silent := kept.silent

theorem Kept.aside (kept : Kept s) (hp : s.parent = some p) {q : Parent} (hpc : q.pc = p.pc)
    (htable : q.table = p.table) : Kept { s with parent := some q } := by
  have sound := kept.parent p hp
  refine kept.moved ⟨?_, ?_, ?_, ?_⟩ fun hpipe => kept.childless p hp (hpc ▸ hpipe)
  · rw [hpc, htable]
    exact sound.before
  · rw [hpc, htable]
    exact sound.apart
  · rw [hpc, htable]
    exact sound.both
  · rw [hpc, htable]
    exact sound.closed

theorem Kept.orphaned (kept : Kept s) : Kept { s with parent := none } where
  empty := kept.empty
  parent := fun q hq => by cases hq
  childless := fun q hq => by cases hq
  child := kept.child
  silent := kept.silent

theorem Kept.printed (kept : Kept s) (line : Line) (hline : line.fromPipe = false) :
    Kept (s.printed line) where
  empty := kept.empty
  parent := kept.parent
  childless := kept.childless
  child := kept.child
  silent := List.forall_mem_append.mpr ⟨kept.silent, List.forall_mem_singleton.mpr hline⟩

theorem Kept.parentStep (kept : Kept s) (hp : s.parent = some p)
    (h : parentStep s p fails = some t) : Kept t := by
  have sound := kept.parent p hp
  cases hpc : p.pc with
  | pipe =>
      have hnone := kept.childless p hp hpc
      obtain ⟨hopen, hinherited⟩ := sound.before hpc
      simp only [PipeChild.parentStep, hpc] at h
      split at h
      · cases h
        rw [Parent.printf_table, State.exits_of_ne (hinherited 1)]
        exact kept.orphaned.printed _ rfl
      · cases h
        refine ⟨kept.empty, ?_, fun _ _ _ => hnone, ?_, kept.silent⟩
        · intro q hq
          cases hq
          exact ⟨nofun, fun _ => lookup_pipe_stdout hopen hinherited,
            fun _ => lookup_pipe p.table, nofun⟩
        · intro c hc
          rw [hnone] at hc
          cases hc
  | fork =>
      have hboth := sound.both (by rw [hpc]; rfl)
      simp only [PipeChild.parentStep, hpc] at h
      split at h
      · cases h
        rw [Parent.printf_table, State.exits_of_ne (sound.apart hpc)]
        exact kept.orphaned.printed _ rfl
      · cases h
        refine ⟨kept.empty, ?_, ?_, ?_, kept.silent⟩
        · intro q hq
          cases hq
          exact ⟨nofun, nofun, fun _ => hboth, nofun⟩
        · intro q hq hpipe
          cases hq
          cases hpipe
        · intro c hc
          cases hc
          exact hboth
  | signal =>
      have hboth := sound.both (by rw [hpc]; rfl)
      simp only [PipeChild.parentStep, hpc] at h
      cases h
      exact kept.moved ⟨nofun, nofun, fun _ => hboth, nofun⟩ nofun
  | greet =>
      have hboth := sound.both (by rw [hpc]; rfl)
      simp only [PipeChild.parentStep, hpc] at h
      cases h
      have sounds : ({ p with pc := .close }.printf .parent).Sound s.fds :=
        ⟨fun hpc => (by cases hpc), fun hpc => (by cases hpc), fun _ => hboth,
          fun hopen => (by cases hopen)⟩
      exact (kept.moved sounds fun hpipe => (by cases hpipe)).printed .parent rfl
  | close =>
      have hboth := sound.both (by rw [hpc]; rfl)
      simp only [PipeChild.parentStep, hpc, PipeChild.close, hboth.2] at h
      cases h
      exact kept.moved ⟨nofun, nofun, nofun, fun _ => lookup_close_self p.table s.fds.2⟩ nofun
  | write left =>
      -- the end for writing is closed, so `write` returns at once
      have hclosed := sound.closed (by rw [hpc]; rfl)
      cases left with
      | zero =>
          simp only [PipeChild.parentStep, hpc, Option.some.injEq] at h
          subst h
          exact kept.moved ⟨nofun, nofun, nofun, fun _ => hclosed⟩ nofun
      | succ left =>
          simp only [PipeChild.parentStep, hpc, PipeChild.write, hclosed, Option.some.injEq] at h
          subst h
          exact kept.moved ⟨nofun, nofun, nofun, fun _ => hclosed⟩ nofun
  | closeAgain =>
      have hclosed := sound.closed (by rw [hpc]; rfl)
      simp only [PipeChild.parentStep, hpc, PipeChild.close, hclosed] at h
      cases h
      have sounds : ({ p with pc := .forever }.printf .closeFailed).Sound s.fds :=
        ⟨fun hpc => (by cases hpc), fun hpc => (by cases hpc), fun hopen => (by cases hopen),
          fun _ => hclosed⟩
      exact (kept.moved sounds fun hpipe => (by cases hpipe)).printed .closeFailed rfl
  | forever =>
      simp only [PipeChild.parentStep, hpc] at h
      cases h
      exact kept

theorem Kept.notified (kept : Kept s) :
    Kept { s with parent := s.parent.map Parent.notified } := by
  cases hp : s.parent with
  | none => exact kept.orphaned
  | some p => exact kept.aside hp rfl rfl

theorem Kept.step (kept : Kept s) (h : PipeChild.step s e = some t) : Kept t := by
  cases e with
  | parent fails =>
      simp only [PipeChild.step] at h
      split at h
      · cases h
      · rename_i p hp
        cases hfunc : p.func with
        | some pc =>
            simp only [hfunc] at h
            cases pc with
            | wait =>
                simp only [funcStep] at h
                split at h
                · cases h
                · cases h
                  exact kept.aside hp rfl rfl
            | printf =>
                cases h
                exact (kept.aside (q := { p with func := none }.printf .terminated) hp rfl
                  rfl).printed .terminated rfl
        | none =>
            simp only [hfunc] at h
            split at h
            · cases h
              exact kept.aside hp rfl rfl
            · exact kept.parentStep hp h
  | child answer =>
      simp only [PipeChild.step] at h
      split at h
      · cases h
      · rename_i c hc
        cases hpc : c.pc with
        | greet =>
            simp only [childStep, hpc, Option.some.injEq] at h
            subst h
            refine Kept.printed (s := { s with
                child := some { c with pc := .read, stdout := c.stdout ++ [Line.child] } })
              ⟨kept.empty, kept.parent, ?_, ?_, kept.silent⟩ .child rfl
            · intro q hq hpipe
              rw [kept.childless q hq hpipe] at hc
              cases hc
            · intro d hd
              cases hd
              exact kept.child c hc
        | read =>
            rw [kept.blocked hc hpc] at h
            cases h
  | killParent =>
      cases h
      exact kept.orphaned
  | killChild =>
      obtain ⟨c, hc, rfl⟩ := Option.map_eq_some_iff.mp h
      have notified := kept.notified
      exact ⟨notified.empty, notified.parent, fun _ _ _ => rfl, fun d hd => (by cases hd),
        kept.silent⟩
  | stopChild =>
      obtain ⟨c, hc, rfl⟩ := Option.map_eq_some_iff.mp h
      exact kept.notified

/-- Nothing is in the pipe, nothing was printed that came from there, and a child that reads is
blocked. -/
structure NeverReads (s : State) : Prop where
  empty : s.pipe = []
  silent : ∀ line ∈ s.output, line.fromPipe = false
  blocked : ∀ c, s.child = some c → c.pc = .read → ∀ answer, step s (.child answer) = none

theorem Kept.neverReads (kept : Kept s) : NeverReads s where
  empty := kept.empty
  silent := kept.silent
  blocked := by
    intro c hc hread answer
    simp only [PipeChild.step, hc]
    exact kept.blocked hc hread answer

/-- With the pipe at the first two descriptors, what the parent prints before it exits is written
to the pipe. -/
theorem printed_into_pipe {shell : Table Nat} (hzero : lookup shell 0 = none)
    (hone : lookup shell 1 = none) :
    ∃ s, run step (start shell) [.parent false, .parent true] = some s ∧
      s.pipe = Line.forkUnsuccessful.bytes := by
  let table : Table File := shell.map (Option.map .inherited)
  have hfirst : lowestFree table = 0 :=
    Nat.le_zero.mp (lowestFree_le (by simp [table, lookup_map, hzero]))
  have hne : lookup (opened .readEnd table) 1 = none := by
    rw [opened, hfirst, lookup_put_of_ne Nat.one_ne_zero]
    simp [table, lookup_map, hone]
  have htaken := lookup_opened table .readEnd
  rw [hfirst] at htaken
  have hsecond : lowestFree (opened .readEnd table) = 1 := by
    have hle := lowestFree_le hne
    have hnezero := ne_lowestFree htaken
    omega
  have hwrite := lookup_opened (opened .readEnd table) .writeEnd
  rw [hsecond] at hwrite
  refine ⟨_, rfl, ?_⟩
  simp [State.exits, State.printed, Parent.printf, table, hwrite, hsecond, hfirst, start]

/-- In every run nothing is ever in the pipe, and the child's first read blocks until the child
is killed: it has an end for writing itself, and the parent writes after it has closed its
own. Only where the shell has left both of the first two descriptors free may a parent without a
child print into the pipe. -/
theorem child_never_reads (shell : Table Nat) :
    (∀ es s, run step (start shell) es = some s → NeverReads s) ↔
      lookup shell 0 ≠ none ∨ lookup shell 1 ≠ none := by
  constructor
  · intro hall
    by_contra hfree
    obtain ⟨hzero, hone⟩ := not_or.mp hfree
    obtain ⟨s, hs, hpipe⟩ := printed_into_pipe (not_not.mp hzero) (not_not.mp hone)
    have hempty := (hall _ s hs).empty
    rw [hpipe] at hempty
    exact absurd hempty (by decide)
  · intro hopen es s hs
    exact (invariant_run (fun _ _ _ kept hstep => Kept.step kept hstep)
      (Kept.start hopen) hs).neverReads

def killedWhileReading : List Event :=
  List.replicate 3 (.parent false) ++ [.child [], .parent false, .parent false] ++
    List.replicate 5 (.parent false) ++ [.killChild] ++ List.replicate 3 (.parent false)

theorem child_never_reads_before_it_is_killed :
    ∃ s, run step (start [some 0, some 1, some 2]) killedWhileReading = some s ∧
      s.fds = (3, 4) ∧ s.output = [.child, .parent, .closeFailed, .terminated] ∧ s.pipe = [] := by
  have hends : (run step (start [some 0, some 1, some 2]) killedWhileReading).map
      (fun s => (s.fds, s.output)) =
      some ((3, 4), [.child, .parent, .closeFailed, .terminated]) := by decide +kernel
  obtain ⟨s, hs, houtput⟩ := Option.map_eq_some_iff.mp hends
  simp only [Prod.mk.injEq] at houtput
  exact ⟨s, hs, houtput.1, houtput.2,
    ((child_never_reads [some 0, some 1, some 2]).mpr (.inl nofun) killedWhileReading s hs).empty⟩

end LinuxTraining.PipeChild
