import LinuxTraining.Library.Descriptors
import LinuxTraining.Library.Execution
import LinuxTraining.Library.Threads

/-!
The daemon that logs who is logged in. It closes the standard descriptors, opens its log, which
takes the lowest one, and makes the other two copies of it. Any number of daemons may be started
at any time, each with the open files of the shell that starts it; they all append to one log.
-/
namespace LinuxTraining.LoginLog
open Execution Descriptors Threads

abbrev Text := List Char

inductive File where
  | inherited (n : Nat)
  | log
  | utmp
  deriving DecidableEq

structure Entry where
  ut_type : Int
  ut_user : Text
  ut_host : Text

def userProcess : Int := 7

def line (timestamp : Text) (entry : Entry) : Text :=
  ['['] ++ timestamp ++ "] User ".toList ++ entry.ut_user ++ " logged in from ".toList ++
    entry.ut_host ++ ['\n']

/-- What has been written to the log and to the files that daemons inherit. -/
structure Files where
  log : Text
  inherited : Nat → Text

/-- `write` to an open file. The login records are open for reading only. -/
def Files.write (files : Files) (file : Option File) (text : Text) : Files :=
  match file with
  | some .log => { files with log := files.log ++ text }
  | some (.inherited n) =>
      { files with
        inherited := Function.update files.inherited n (files.inherited n ++ text) }
  | some .utmp | none => files

inductive Pc where
  | fork
  | setsid
  | chdir
  | closeStdin
  | closeStdout
  | closeStderr
  | openLog
  | dup2Stdout
  | dup2Stderr
  | setutxent
  | getutxent
  | printf (entry : Entry)
  | endutxent
  | sleep
  | exited

/-- A daemon; `utmp` is the descriptor at which the C library reads the login records. -/
structure Daemon where
  pc : Pc
  table : Table File
  log_fd : Nat
  utmp : Option Nat

/-- What the calls of a step give: whether one fails, the next entry of the login records if
there is one, and the time as text. -/
structure Answer where
  fails : Bool
  entry : Option Entry
  timestamp : Text

/-- A shell with these open files starts a daemon; or a daemon takes a step. -/
inductive Event where
  | start (shell : Table Nat)
  | run (k : Nat) (answer : Answer)

structure State where
  files : Files
  daemons : List Daemon

def start (log : Text) : State := ⟨⟨log, fun _ => []⟩, []⟩

def perrorText : Text := "Failed to open log file: ".toList

namespace Daemon

def goto (d : Daemon) (pc : Pc) : Daemon := { d with pc }

def openUtmp (d : Daemon) : Daemon :=
  match d.utmp with
  | some _ => d
  | none => { d with table := opened .utmp d.table, utmp := some (lowestFree d.table) }

/-- The next entry: one of a user's process is printed, any other one passed over. -/
def read (d : Daemon) : Option Entry → Daemon
  | none => d.goto .endutxent
  | some entry => d.goto (if entry.ut_type = userProcess then .printf entry else .getutxent)

def step (files : Files) (d : Daemon) (answer : Answer) : Option (Files × Daemon) :=
  match d.pc with
  | .fork => some (files, d.goto (if answer.fails then .exited else .setsid))
  | .setsid => some (files, d.goto (if answer.fails then .exited else .chdir))
  | .chdir => some (files, d.goto (if answer.fails then .exited else .closeStdin))
  | .closeStdin => some (files, { d with pc := .closeStdout, table := close d.table 0 })
  | .closeStdout => some (files, { d with pc := .closeStderr, table := close d.table 1 })
  | .closeStderr => some (files, { d with pc := .openLog, table := close d.table 2 })
  | .openLog =>
      if answer.fails then
        some (files.write (lookup d.table 2) perrorText, d.goto .exited)
      else
        some (files,
          { d with pc := .dup2Stdout, table := opened .log d.table, log_fd := lowestFree d.table })
  | .dup2Stdout =>
      some (files, { d with pc := .dup2Stderr, table := dup2 d.table d.log_fd 1 })
  | .dup2Stderr =>
      some (files, { d with pc := .setutxent, table := dup2 d.table d.log_fd 2 })
  | .setutxent => some (files, (if answer.fails then d else d.openUtmp).goto .getutxent)
  | .getutxent =>
      match d.utmp with
      | some _ => some (files, d.read answer.entry)
      | none =>
          some (files,
            if answer.fails then d.goto .endutxent else d.openUtmp.read answer.entry)
  | .printf entry =>
      some (files.write (lookup d.table 1) (line answer.timestamp entry), d.goto .getutxent)
  | .endutxent =>
      match d.utmp with
      | some fd => some (files, { d with pc := .sleep, table := close d.table fd, utmp := none })
      | none => some (files, d.goto .sleep)
  | .sleep => some (files, d.goto .setutxent)
  | .exited => none

end Daemon

def step (s : State) : Event → Option State
  | .start shell =>
      some { s with
        daemons := s.daemons ++ [⟨.fork, shell.map (Option.map .inherited), 0, none⟩] }
  | .run k answer =>
      match s.daemons[k]? with
      | none => none
      | some d =>
          (d.step s.files answer).map fun (files, d') => ⟨files, s.daemons.set k d'⟩

def Daemon.printed (d : Daemon) (answer : Answer) : List Text :=
  match d.pc with
  | .printf entry => [line answer.timestamp entry]
  | _ => []

def printed (s : State) : Event → List Text
  | .start _ => []
  | .run k answer => (s.daemons[k]?.map fun d => d.printed answer).getD []

def Logs (n : Nat) (table : Table File) : Prop := ∀ fd, fd < n → lookup table fd = some .log

def Free (n : Nat) (table : Table File) : Prop := ∀ fd, fd < n → lookup table fd = none

structure Daemon.Ready (d : Daemon) : Prop where
  logs : Logs 3 d.table
  utmp : ∀ fd, d.utmp = some fd → lookup d.table fd = some .utmp

def Daemon.Sound (d : Daemon) : Prop :=
  match d.pc with
  | .fork | .setsid | .chdir | .closeStdin => d.utmp = none
  | .closeStdout => Free 1 d.table ∧ d.utmp = none
  | .closeStderr => Free 2 d.table ∧ d.utmp = none
  | .openLog => Free 3 d.table ∧ d.utmp = none
  | .dup2Stdout => Logs 1 d.table ∧ d.log_fd = 0 ∧ d.utmp = none
  | .dup2Stderr => Logs 2 d.table ∧ d.log_fd = 0 ∧ d.utmp = none
  | .setutxent | .getutxent | .endutxent | .sleep => d.Ready
  | .printf entry => d.Ready ∧ entry.ut_type = userProcess
  | .exited => True

variable {n fd : Nat} {table : Table File}

theorem Free.close (h : Free n table) : Free (n + 1) (close table n) := by
  intro fd hfd
  by_cases hn : fd = n
  · subst hn
    exact lookup_close_self table fd
  · rw [lookup_close_of_ne hn]
    exact h fd (by omega)

theorem Free.lowestFree (h : Free (n + 1) table) : lowestFree table = 0 :=
  Nat.le_zero.mp (lowestFree_le (h 0 (Nat.succ_pos n)))

theorem Logs.put (h : Logs n table) : Logs (n + 1) (put .log table n) := by
  intro fd hfd
  by_cases hn : fd = n
  · subst hn
    exact lookup_put_self _ table fd
  · rw [lookup_put_of_ne hn]
    exact h fd (by omega)

theorem Logs.dup2 (h : Logs (n + 1) table) : Logs (n + 2) (dup2 table 0 (n + 1)) := by
  rw [Descriptors.dup2, h 0 (Nat.succ_pos n)]
  exact h.put

theorem Logs.opened (h : Logs n table) (file : File) : Logs n (opened file table) :=
  fun fd hfd => lookup_opened_of_some (h fd hfd)

/-- The login records are at no descriptor of the log. -/
theorem Logs.close (h : Logs n table) (hfd : lookup table fd = some .utmp) :
    Logs n (close table fd) := by
  intro fd' hfd'
  by_cases hsame : fd' = fd
  · subst hsame
    rw [h fd' hfd'] at hfd
    cases hfd
  · rw [lookup_close_of_ne hsame]
    exact h fd' hfd'

theorem Daemon.Ready.goto {d : Daemon} (h : d.Ready) (pc : Pc) : (d.goto pc).Ready :=
  ⟨h.logs, h.utmp⟩

theorem Daemon.Ready.openUtmp {d : Daemon} (h : d.Ready) : d.openUtmp.Ready := by
  unfold Daemon.openUtmp
  cases hutmp : d.utmp with
  | some fd => exact h
  | none =>
      refine ⟨h.logs.opened .utmp, fun fd hfd => ?_⟩
      cases hfd
      exact lookup_opened d.table .utmp

theorem Daemon.Ready.read {d : Daemon} (h : d.Ready) (entry : Option Entry) :
    (d.read entry).Sound := by
  cases entry with
  | none => exact h.goto .endutxent
  | some entry =>
      simp only [Daemon.read]
      split
      · rename_i htype
        exact ⟨h.goto (.printf entry), htype⟩
      · exact h.goto .getutxent

variable {files files' : Files} {d d' : Daemon} {answer : Answer}

/-- A daemon writes nothing but its lines, and those to the log. -/
theorem Daemon.Sound.step (h : d.Sound) (hstep : d.step files answer = some (files', d')) :
    d'.Sound ∧ files' = { files with log := files.log ++ (d.printed answer).flatten } := by
  have hsame : files = { files with log := files.log ++ ([] : List Text).flatten } := by
    rw [List.flatten_nil, List.append_nil]
  cases hpc : d.pc with
  | fork | setsid | chdir =>
      simp only [Daemon.Sound, hpc] at h
      simp only [Daemon.step, hpc, Option.some.injEq, Prod.mk.injEq] at hstep
      obtain ⟨rfl, rfl⟩ := hstep
      simp only [Daemon.printed, hpc]
      refine ⟨?_, hsame⟩
      cases answer.fails with
      | true => trivial
      | false => exact h
  | closeStdin =>
      simp only [Daemon.Sound, hpc] at h
      simp only [Daemon.step, hpc, Option.some.injEq, Prod.mk.injEq] at hstep
      obtain ⟨rfl, rfl⟩ := hstep
      simp only [Daemon.printed, hpc]
      exact ⟨⟨Free.close fun fd hfd => absurd hfd (Nat.not_lt_zero fd), h⟩, hsame⟩
  | closeStdout | closeStderr =>
      simp only [Daemon.Sound, hpc] at h
      simp only [Daemon.step, hpc, Option.some.injEq, Prod.mk.injEq] at hstep
      obtain ⟨rfl, rfl⟩ := hstep
      simp only [Daemon.printed, hpc]
      exact ⟨⟨h.1.close, h.2⟩, hsame⟩
  | openLog =>
      simp only [Daemon.Sound, hpc] at h
      simp only [Daemon.step, hpc] at hstep
      simp only [Daemon.printed, hpc]
      split at hstep
      · -- `perror` finds its descriptor closed
        cases hstep
        rw [h.1 2 (by decide)]
        exact ⟨trivial, hsame⟩
      · cases hstep
        refine ⟨⟨fun fd hfd => ?_, h.1.lowestFree, h.2⟩, hsame⟩
        have hzero : fd = lowestFree d.table := by
          rw [h.1.lowestFree]
          omega
        rw [hzero]
        exact lookup_opened d.table .log
  | dup2Stdout =>
      simp only [Daemon.Sound, hpc] at h
      simp only [Daemon.step, hpc, h.2.1, Option.some.injEq, Prod.mk.injEq] at hstep
      obtain ⟨rfl, rfl⟩ := hstep
      simp only [Daemon.printed, hpc]
      exact ⟨⟨h.1.dup2, rfl, h.2.2⟩, hsame⟩
  | dup2Stderr =>
      simp only [Daemon.Sound, hpc] at h
      simp only [Daemon.step, hpc, h.2.1, Option.some.injEq, Prod.mk.injEq] at hstep
      obtain ⟨rfl, rfl⟩ := hstep
      simp only [Daemon.printed, hpc]
      refine ⟨⟨h.1.dup2, fun fd hfd => ?_⟩, hsame⟩
      rw [h.2.2] at hfd
      cases hfd
  | setutxent =>
      simp only [Daemon.Sound, hpc] at h
      simp only [Daemon.step, hpc, Option.some.injEq, Prod.mk.injEq] at hstep
      obtain ⟨rfl, rfl⟩ := hstep
      simp only [Daemon.printed, hpc]
      refine ⟨?_, hsame⟩
      cases answer.fails with
      | true => exact h.goto .getutxent
      | false => exact h.openUtmp.goto .getutxent
  | getutxent =>
      simp only [Daemon.Sound, hpc] at h
      simp only [Daemon.step, hpc] at hstep
      simp only [Daemon.printed, hpc]
      split at hstep
      · cases hstep
        exact ⟨h.read answer.entry, hsame⟩
      · split at hstep
        · cases hstep
          exact ⟨h.goto .endutxent, hsame⟩
        · cases hstep
          exact ⟨h.openUtmp.read answer.entry, hsame⟩
  | printf entry =>
      simp only [Daemon.Sound, hpc] at h
      simp only [Daemon.step, hpc, h.1.logs 1 (by decide), Option.some.injEq,
        Prod.mk.injEq] at hstep
      obtain ⟨rfl, rfl⟩ := hstep
      simp only [Daemon.printed, hpc]
      refine ⟨h.1.goto .getutxent, ?_⟩
      rw [List.flatten_singleton]
      rfl
  | endutxent =>
      simp only [Daemon.Sound, hpc] at h
      simp only [Daemon.step, hpc] at hstep
      simp only [Daemon.printed, hpc]
      split at hstep
      · rename_i fd hfd
        cases hstep
        exact ⟨⟨h.logs.close (h.utmp fd hfd), fun fd hnone => (by cases hnone)⟩, hsame⟩
      · cases hstep
        exact ⟨h.goto .sleep, hsame⟩
  | sleep =>
      simp only [Daemon.Sound, hpc] at h
      simp only [Daemon.step, hpc, Option.some.injEq, Prod.mk.injEq] at hstep
      obtain ⟨rfl, rfl⟩ := hstep
      simp only [Daemon.printed, hpc]
      exact ⟨h.goto .setutxent, hsame⟩
  | exited => simp [Daemon.step, hpc] at hstep

/-- The log holds what it held at first and the lines printed since; nothing else has been
written. -/
structure Logged (log : Text) (s : State) (lines : List Text) : Prop where
  files : s.files = ⟨log ++ lines.flatten, fun _ => []⟩
  sound : ∀ d ∈ s.daemons, d.Sound

theorem Logged.step {log : Text} {s t : State} {e : Event} {lines : List Text}
    (logged : Logged log s lines) (h : LoginLog.step s e = some t) :
    Logged log t (lines ++ LoginLog.printed s e) := by
  cases e with
  | start shell =>
      cases h
      refine ⟨?_, forall_created logged.sound rfl⟩
      simpa [LoginLog.printed] using logged.files
  | run k answer =>
      simp only [LoginLog.step] at h
      split at h
      · cases h
      · rename_i d hd
        obtain ⟨⟨files, d'⟩, hstep, rfl⟩ := Option.map_eq_some_iff.mp h
        obtain ⟨hsound, hfiles⟩ := (logged.sound d (List.mem_of_getElem? hd)).step hstep
        refine ⟨?_, forall_moved logged.sound hsound⟩
        have hprinted : LoginLog.printed s (.run k answer) = d.printed answer := by
          simp only [LoginLog.printed, hd, Option.map_some, Option.getD_some]
        rw [hprinted, hfiles, logged.files, List.flatten_append, List.append_assoc]

/-- However many daemons are started, with whatever files open, and however their steps
interleave: the log holds what it held before and then whole lines, one for each line that a
daemon has printed, in that order. A file that a daemon has inherited gets nothing. -/
theorem log_holds_all_lines (log : Text) (es : List Event) (s : State)
    (h : run step (start log) es = some s) :
    s.files.log = log ++ (emitted step printed (start log) es).flatten ∧
      (∀ n, s.files.inherited n = []) ∧
      ∀ d entry, d ∈ s.daemons → d.pc = .printf entry → entry.ut_type = userProcess := by
  have first : Logged log (start log) [] :=
    ⟨by simp [start], fun _ hd => absurd hd List.not_mem_nil⟩
  have logged := invariant_emitted (fun _ _ _ _ hs hstep => Logged.step hs hstep) first h
  rw [List.nil_append] at logged
  refine ⟨by rw [logged.files], fun n => by rw [logged.files], fun d entry hd hpc => ?_⟩
  have sound := logged.sound d hd
  simp only [Daemon.Sound, hpc] at sound
  exact sound.2

def aLogin : Entry := ⟨7, "ann".toList, ":0".toList⟩

def aBoot : Entry := ⟨2, "reboot".toList, []⟩

def given (entry : Option Entry) : Answer := ⟨false, entry, "noon".toList⟩

def twoDaemons : List Event :=
  [.start [some 0, some 1, some 2], .start [none, some 5]] ++
    List.replicate 9 (.run 0 (given none)) ++ List.replicate 9 (.run 1 (given none)) ++
    [.run 0 (given none), .run 1 (given none)] ++
    [.run 0 (given (some aBoot)), .run 0 (given (some aLogin)), .run 1 (given (some aLogin)),
      .run 1 (given none), .run 0 (given none)]

theorem log_holds_all_lines_two_daemons :
    ∃ s, run step (start "old\n".toList) twoDaemons = some s ∧
      s.files.log = "old\n[noon] User ann logged in from :0\n".toList ++
        "[noon] User ann logged in from :0\n".toList ∧ ∀ n, s.files.inherited n = [] := by
  have hends : (run step (start "old\n".toList) twoDaemons).map (fun s => s.files.log) =
      some ("old\n[noon] User ann logged in from :0\n".toList ++
        "[noon] User ann logged in from :0\n".toList) := by decide +kernel
  obtain ⟨s, hs, hlog⟩ := Option.map_eq_some_iff.mp hends
  exact ⟨s, hs, hlog, (log_holds_all_lines _ twoDaemons s hs).2.1⟩

end LinuxTraining.LoginLog
