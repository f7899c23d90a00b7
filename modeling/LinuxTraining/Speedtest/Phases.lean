import LinuxTraining.Library.Execution
import LinuxTraining.Library.Threads
import LinuxTraining.Speedtest.BestServer
import LinuxTraining.Speedtest.HttpFile
import Mathlib.Logic.Function.Basic

/-!
The download and the upload phase of `run_proc` with their worker threads. Main
and the workers take steps in any order; each access to a shared variable is a
step of its own, and the answers of the system calls come with the event. The
reporting threads only read and are left out. The thread table has no bound
here: the program's own has `THREAD_NUMBER` slots.
-/
namespace LinuxTraining.Speedtest

def ulBufferTimes : Nat := 10240

def dlBufferSize : Nat := 8192

inductive Phase where
  | download
  | upload
  deriving DecidableEq

structure Slot where
  thread_index : Nat
  running : Bool
  domain_name : Text
  request_url : Text
  servinfo : SockAddr

inductive After where
  | receive
  | header
  | block (j : Nat)
  deriving DecidableEq

/-- Where a worker stands. `close` is the label `err`. -/
inductive Pc where
  | start
  | socket
  | connect
  | requestUrl
  | domainName
  | send
  | sendBlock (j : Nat)
  | select
  | recv (ready : Bool)
  | lock (size : Nat) (after : After)
  | load (size : Nat) (after : After)
  | store (size total : Nat) (after : After)
  | unlock (after : After)
  | testStop (after : After)
  | close
  | clearRunning
  | done
  deriving DecidableEq

/-- A thread and its local variables; `arg` is the slot it was created for, and the
last three are the values it read from its slot. -/
structure Worker where
  phase : Phase
  arg : Nat
  i : Nat
  pc : Pc
  servinfo : Option SockAddr
  request_url : Option Text
  domain_name : Option Text

/-- What all threads share. `total_size` is `total_dl_size` and `total_ul_size`, and
`mutex` names the worker that holds the lock. No thread reads `transferred`, the
positive results of `recv` in download workers and of `send` in upload workers. The
counters are `long int` in the program; sums from `2 ^ 63` on, which overflow, are
left out. -/
structure Shared where
  thread : Nat → Slot
  thread_all_stop : Bool
  mutex : Option Nat
  total_size : Phase → Nat
  transferred : Phase → Nat

/-- Where `run_proc` stands from the start of the download phase on. -/
inductive MainPc where
  | testTime (phase : Phase)
  | copyServinfo (phase : Phase) (i : Nat)
  | copyDomainName (phase : Phase) (i : Nat)
  | copyRequestUrl (phase : Phase) (i : Nat)
  | testRunning (phase : Phase) (i : Nat)
  | setIndex (phase : Phase) (i : Nat)
  | setRunning (phase : Phase) (i : Nat)
  | create (phase : Phase) (i : Nat)
  | testStop (phase : Phase)
  | sleep
  | resetStop
  | speedtestUpload
  | returned
  deriving DecidableEq

structure State where
  main : MainPc
  workers : List Worker
  shared : Shared

/-- The server list that `get_best_server` left, and the number of threads. -/
structure Config where
  nearest_servers : Servers
  thread_nums : Nat

/-- `elapsed` answers `time_used > SPEEDTEST_DURATION`, and `answer` the call that a
worker makes. -/
inductive Event where
  | main (elapsed : Bool)
  | worker (k : Nat) (answer : Int)
  deriving DecidableEq

def start : State where
  main := .testTime .download
  workers := []
  shared :=
    { thread := fun _ => ⟨0, false, [], [], ⟨0, 0⟩⟩
      thread_all_stop := false
      mutex := none
      total_size := fun _ => 0
      transferred := fun _ => 0 }

def exampleServer : ServerData :=
  ⟨"http://example.com/speedtest/upload.php".toList, 20, "example.com".toList, ⟨1, 80⟩⟩

def oneThread : Config := ⟨fun _ => exampleServer, 1⟩

/-- The header that `upload_thread` sends. -/
def postRequest (request_url domain_name : Text) : Text :=
  "POST /".toList ++ request_url ++
    " HTTP/1.0\r\nContent-type: application/x-www-form-urlencoded\r\nHost: ".toList ++
    domain_name ++ "\r\nContent-Length: 83886080\r\n\r\n".toList

def requestUrl : Phase → Text → Text
  | .download, url => downloadRequestUrl url
  | .upload, url => uploadRequestUrl url

namespace Worker

def created (phase : Phase) (arg : Nat) : Worker := ⟨phase, arg, 0, .start, none, none, none⟩

def goto (w : Worker) (pc : Pc) : Worker := { w with pc }

def request (w : Worker) : Text :=
  match w.phase with
  | .download => getRequest (w.request_url.getD []) (w.domain_name.getD [])
  | .upload => postRequest (w.request_url.getD []) (w.domain_name.getD [])

end Worker

namespace Shared

def setSlot (sh : Shared) (i : Nat) (slot : Slot) : Shared :=
  { sh with thread := Function.update sh.thread i slot }

def transfer (sh : Shared) (phase : Phase) (answer : Int) : Shared :=
  { sh with transferred :=
      Function.update sh.transferred phase (sh.transferred phase + answer.toNat) }

end Shared

/-- The code that both thread functions begin with. -/
def openConnection (sh : Shared) (w : Worker) (answer : Int) : Worker :=
  match w.pc with
  | .start => { w with i := (sh.thread w.arg).thread_index, pc := .socket }
  | .socket => if answer = -1 then w.goto .close else w.goto .connect
  | .connect =>
      { w with
        servinfo := some (sh.thread w.i).servinfo
        pc := if answer = -1 then .close else .requestUrl }
  | .requestUrl =>
      { w with request_url := some (sh.thread w.i).request_url, pc := .domainName }
  | _ => { w with domain_name := some (sh.thread w.i).domain_name, pc := .send }

/-- The update of a counter: lock, read, write, unlock. -/
def addSize (sh : Shared) (k : Nat) (w : Worker) : Option (Worker × Shared) :=
  match w.pc with
  | .lock size after =>
      if sh.mutex = none then some (w.goto (.load size after), { sh with mutex := some k })
      else none
  | .load size after => some (w.goto (.store size (sh.total_size w.phase) after), sh)
  | .store size total after =>
      some (w.goto (.unlock after),
        { sh with total_size := Function.update sh.total_size w.phase (total + size) })
  | .unlock .header => some (w.goto (.sendBlock 0), { sh with mutex := none })
  | .unlock after => some (w.goto (.testStop after), { sh with mutex := none })
  | _ => none

def finish (sh : Shared) (w : Worker) : Option (Worker × Shared) :=
  match w.pc with
  | .close => some (w.goto .clearRunning, sh)
  | .clearRunning =>
      some (w.goto .done, sh.setSlot w.i { sh.thread w.i with running := false })
  | _ => none

def downloadThread (sh : Shared) (w : Worker) (answer : Int) : Option (Worker × Shared) :=
  match w.pc with
  | .send =>
      if answer = w.request.length then some (w.goto .select, sh) else some (w.goto .close, sh)
  | .select => some (w.goto (.recv (0 < answer)), sh)
  | .recv ready =>
      if dlBufferSize < answer then none
      else if ready then
        if answer ≤ 0 then some (w.goto .close, sh)
        else some (w.goto (.lock answer.toNat .receive), sh.transfer .download answer)
      else some (w.goto .select, sh.transfer .download answer)
  | .testStop _ =>
      if sh.thread_all_stop then some (w.goto .close, sh) else some (w.goto .select, sh)
  | _ => none

def uploadThread (sh : Shared) (w : Worker) (answer : Int) : Option (Worker × Shared) :=
  match w.pc with
  | .send =>
      if w.request.length < answer then none
      else if answer = w.request.length then
        some (w.goto (.lock answer.toNat .header), sh.transfer .upload answer)
      else some (w.goto .close, sh.transfer .upload answer)
  | .sendBlock j =>
      if j < ulBufferTimes then
        if ulBufferSize < answer then none
        else if answer = ulBufferSize then
          some (w.goto (.lock answer.toNat (.block j)), sh.transfer .upload answer)
        else some (w.goto .close, sh.transfer .upload answer)
      else some (w.goto .select, sh)
  | .testStop after =>
      if sh.thread_all_stop then some (w.goto .close, sh)
      else
        match after with
        | .block j => some (w.goto (.sendBlock (j + 1)), sh)
        | _ => none
  | .select => some (w.goto (.recv (0 < answer)), sh)
  | .recv ready =>
      if dlBufferSize < answer then none
      else if ready ∧ answer ≤ 0 then some (w.goto .close, sh)
      else some (w.goto .select, sh)
  | _ => none

def workerStep (sh : Shared) (k : Nat) (w : Worker) (answer : Int) :
    Option (Worker × Shared) :=
  match w.pc with
  | .start | .socket | .connect | .requestUrl | .domainName =>
      some (openConnection sh w answer, sh)
  | .lock _ _ | .load _ _ | .store _ _ _ | .unlock _ => addSize sh k w
  | .close | .clearRunning | .done => finish sh w
  | .send | .sendBlock _ | .select | .recv _ | .testStop _ =>
      match w.phase with
      | .download => downloadThread sh w answer
      | .upload => uploadThread sh w answer

/-- `&nearest_servers[1]`, which both phases are called with. -/
def Config.nearest_server (cfg : Config) : ServerData := cfg.nearest_servers 1

/-- The loops of `speedtest_download` and `speedtest_upload`, and what `run_proc` does
between the calls. -/
def mainStep (cfg : Config) (s : State) (elapsed : Bool) : Option State :=
  let sh := s.shared
  match s.main with
  | .testTime phase =>
      some { s with
        main := .copyServinfo phase 0
        shared := if elapsed then { sh with thread_all_stop := true } else sh }
  | .copyServinfo phase i =>
      if i < cfg.thread_nums then
        some { s with
          main := .copyDomainName phase i
          shared := sh.setSlot i { sh.thread i with servinfo := cfg.nearest_server.servinfo } }
      else some { s with main := .testStop phase }
  | .copyDomainName phase i =>
      some { s with
        main := .copyRequestUrl phase i
        shared := sh.setSlot i
          { sh.thread i with domain_name := cfg.nearest_server.domain_name } }
  | .copyRequestUrl phase i =>
      some { s with
        main := .testRunning phase i
        shared := sh.setSlot i
          { sh.thread i with request_url := requestUrl phase cfg.nearest_server.url } }
  | .testRunning phase i =>
      if (sh.thread i).running then some { s with main := .copyServinfo phase (i + 1) }
      else some { s with main := .setIndex phase i }
  | .setIndex phase i =>
      some { s with
        main := .setRunning phase i
        shared := sh.setSlot i { sh.thread i with thread_index := i } }
  | .setRunning phase i =>
      some { s with
        main := .create phase i
        shared := sh.setSlot i { sh.thread i with running := true } }
  | .create phase i =>
      some { s with
        main := .copyServinfo phase (i + 1)
        workers := s.workers ++ [Worker.created phase i] }
  | .testStop phase =>
      if sh.thread_all_stop then
        some { s with main := match phase with
          | .download => .sleep
          | .upload => .returned }
      else some { s with main := .testTime phase }
  | .sleep => some { s with main := .resetStop }
  | .resetStop =>
      some { s with main := .speedtestUpload, shared := { sh with thread_all_stop := false } }
  | .speedtestUpload => some { s with main := .testTime .upload }
  | .returned => none

def step (cfg : Config) (s : State) : Event → Option State
  | .main elapsed => mainStep cfg s elapsed
  | .worker k answer =>
      match s.workers[k]? with
      | none => none
      | some w =>
          (workerStep s.shared k w answer).map fun (w', sh) =>
            { s with workers := s.workers.set k w', shared := sh }

theorem step_worker {cfg : Config} {s t : State} {k : Nat} {answer : Int}
    (h : step cfg s (.worker k answer) = some t) :
    ∃ w w' sh, s.workers[k]? = some w ∧ workerStep s.shared k w answer = some (w', sh) ∧
      t = { s with workers := s.workers.set k w', shared := sh } := by
  cases hw : s.workers[k]? with
  | none => simp [step, hw] at h
  | some w =>
      simp only [step, hw] at h
      obtain ⟨⟨w', sh⟩, hstep, rfl⟩ := Option.map_eq_some_iff.mp h
      exact ⟨w, w', sh, rfl, hstep, rfl⟩

inductive MainMoved (cfg : Config) (s : State) (elapsed : Bool) : State → Prop where
  | testTime (phase : Phase) (at_ : s.main = .testTime phase) :
      MainMoved cfg s elapsed { s with
        main := .copyServinfo phase 0
        shared :=
          if elapsed then { s.shared with thread_all_stop := true } else s.shared }
  | copyServinfo (phase : Phase) (i : Nat) (at_ : s.main = .copyServinfo phase i)
      (below : i < cfg.thread_nums) :
      MainMoved cfg s elapsed { s with
        main := .copyDomainName phase i
        shared := s.shared.setSlot i
          { s.shared.thread i with servinfo := cfg.nearest_server.servinfo } }
  | endOfTurn (phase : Phase) (i : Nat) (at_ : s.main = .copyServinfo phase i)
      (above : ¬ i < cfg.thread_nums) :
      MainMoved cfg s elapsed { s with main := .testStop phase }
  | copyDomainName (phase : Phase) (i : Nat) (at_ : s.main = .copyDomainName phase i) :
      MainMoved cfg s elapsed { s with
        main := .copyRequestUrl phase i
        shared := s.shared.setSlot i
          { s.shared.thread i with domain_name := cfg.nearest_server.domain_name } }
  | copyRequestUrl (phase : Phase) (i : Nat) (at_ : s.main = .copyRequestUrl phase i) :
      MainMoved cfg s elapsed { s with
        main := .testRunning phase i
        shared := s.shared.setSlot i
          { s.shared.thread i with
            request_url := requestUrl phase cfg.nearest_server.url } }
  | busy (phase : Phase) (i : Nat) (at_ : s.main = .testRunning phase i)
      (running : (s.shared.thread i).running = true) :
      MainMoved cfg s elapsed { s with main := .copyServinfo phase (i + 1) }
  | free (phase : Phase) (i : Nat) (at_ : s.main = .testRunning phase i)
      (running : (s.shared.thread i).running = false) :
      MainMoved cfg s elapsed { s with main := .setIndex phase i }
  | setIndex (phase : Phase) (i : Nat) (at_ : s.main = .setIndex phase i) :
      MainMoved cfg s elapsed { s with
        main := .setRunning phase i
        shared := s.shared.setSlot i { s.shared.thread i with thread_index := i } }
  | setRunning (phase : Phase) (i : Nat) (at_ : s.main = .setRunning phase i) :
      MainMoved cfg s elapsed { s with
        main := .create phase i
        shared := s.shared.setSlot i { s.shared.thread i with running := true } }
  | create (phase : Phase) (i : Nat) (at_ : s.main = .create phase i) :
      MainMoved cfg s elapsed { s with
        main := .copyServinfo phase (i + 1)
        workers := s.workers ++ [.created phase i] }
  | goOn (phase : Phase) (at_ : s.main = .testStop phase) :
      MainMoved cfg s elapsed { s with main := .testTime phase }
  | stopDownload (at_ : s.main = .testStop .download) :
      MainMoved cfg s elapsed { s with main := .sleep }
  | stopUpload (at_ : s.main = .testStop .upload) :
      MainMoved cfg s elapsed { s with main := .returned }
  | sleep (at_ : s.main = .sleep) : MainMoved cfg s elapsed { s with main := .resetStop }
  | resetStop (at_ : s.main = .resetStop) :
      MainMoved cfg s elapsed { s with
        main := .speedtestUpload
        shared := { s.shared with thread_all_stop := false } }
  | speedtestUpload (at_ : s.main = .speedtestUpload) :
      MainMoved cfg s elapsed { s with main := .testTime .upload }

theorem mainStep_moved {cfg : Config} {s t : State} {elapsed : Bool}
    (h : mainStep cfg s elapsed = some t) : MainMoved cfg s elapsed t := by
  unfold mainStep at h
  cases hmain : s.main with
  | testTime phase =>
      simp only [hmain] at h
      exact Option.some.inj h ▸ .testTime phase hmain
  | copyServinfo phase i =>
      simp only [hmain] at h
      split at h
      · rename_i hbelow
        exact Option.some.inj h ▸ .copyServinfo phase i hmain hbelow
      · rename_i habove
        exact Option.some.inj h ▸ .endOfTurn phase i hmain habove
  | copyDomainName phase i =>
      simp only [hmain] at h
      exact Option.some.inj h ▸ .copyDomainName phase i hmain
  | copyRequestUrl phase i =>
      simp only [hmain] at h
      exact Option.some.inj h ▸ .copyRequestUrl phase i hmain
  | testRunning phase i =>
      simp only [hmain] at h
      split at h
      · rename_i hrunning
        exact Option.some.inj h ▸ .busy phase i hmain hrunning
      · rename_i hrunning
        exact Option.some.inj h ▸ .free phase i hmain (by simpa using hrunning)
  | setIndex phase i =>
      simp only [hmain] at h
      exact Option.some.inj h ▸ .setIndex phase i hmain
  | setRunning phase i =>
      simp only [hmain] at h
      exact Option.some.inj h ▸ .setRunning phase i hmain
  | create phase i =>
      simp only [hmain] at h
      exact Option.some.inj h ▸ .create phase i hmain
  | testStop phase =>
      simp only [hmain] at h
      split at h
      · cases phase with
        | download => exact Option.some.inj h ▸ .stopDownload hmain
        | upload => exact Option.some.inj h ▸ .stopUpload hmain
      · exact Option.some.inj h ▸ .goOn phase hmain
  | sleep =>
      simp only [hmain] at h
      exact Option.some.inj h ▸ .sleep hmain
  | resetStop =>
      simp only [hmain] at h
      exact Option.some.inj h ▸ .resetStop hmain
  | speedtestUpload =>
      simp only [hmain] at h
      exact Option.some.inj h ▸ .speedtestUpload hmain
  | returned => simp [hmain] at h

/-- Main leaves the lock and the counters alone, and only adds to the workers. -/
theorem MainMoved.frame {cfg : Config} {s t : State} {elapsed : Bool}
    (h : MainMoved cfg s elapsed t) :
    t.shared.mutex = s.shared.mutex ∧ t.shared.total_size = s.shared.total_size ∧
      t.shared.transferred = s.shared.transferred ∧
      (t.workers = s.workers ∨
        ∃ phase i, s.main = .create phase i ∧ t.workers = s.workers ++ [.created phase i]) := by
  cases h with
  | create phase i at_ => exact ⟨rfl, rfl, rfl, .inr ⟨phase, i, at_, rfl⟩⟩
  | testTime phase at_ => refine ⟨?_, ?_, ?_, .inl rfl⟩ <;> cases elapsed <;> rfl
  | _ => exact ⟨rfl, rfl, rfl, .inl rfl⟩

def Pc.Opens : Pc → Prop
  | .start | .socket | .connect | .requestUrl | .domainName => True
  | _ => False

def Pc.Talks : Pc → Prop
  | .send | .sendBlock _ | .select | .recv _ | .testStop _ | .close => True
  | _ => False

def Pc.Quiet : Pc → Prop
  | .start | .lock _ _ | .load _ _ | .store _ _ _ | .unlock _ | .done => False
  | _ => True

/-- The bytes that the answer moves and that no counter will get: data received after a
timeout, and a send that was cut short. -/
def Worker.uncounted (w : Worker) (answer : Int) : Nat :=
  match w.phase, w.pc with
  | .download, .recv ready => if ready then 0 else answer.toNat
  | .upload, .send => if answer = w.request.length then 0 else answer.toNat
  | .upload, .sendBlock j =>
      if j < ulBufferTimes ∧ answer ≠ ulBufferSize then answer.toNat else 0
  | _, _ => 0

inductive Moved (sh : Shared) (k : Nat) (w : Worker) (answer : Int) :
    Worker → Shared → Prop where
  | opens (at_ : w.pc.Opens) : Moved sh k w answer (openConnection sh w answer) sh
  | talks (pc : Pc) (at_ : w.pc.Talks) (quiet : pc.Quiet) (all : w.uncounted answer = 0) :
      Moved sh k w answer (w.goto pc) sh
  | counts (after : After) (at_ : w.pc.Talks) (all : w.uncounted answer = 0) :
      Moved sh k w answer (w.goto (.lock answer.toNat after)) (sh.transfer w.phase answer)
  | drops (pc : Pc) (at_ : w.pc.Talks) (quiet : pc.Quiet)
      (lost : w.uncounted answer = answer.toNat) :
      Moved sh k w answer (w.goto pc) (sh.transfer w.phase answer)
  | locks (size : Nat) (after : After) (at_ : w.pc = .lock size after) (free : sh.mutex = none) :
      Moved sh k w answer (w.goto (.load size after)) { sh with mutex := some k }
  | loads (size : Nat) (after : After) (at_ : w.pc = .load size after) :
      Moved sh k w answer (w.goto (.store size (sh.total_size w.phase) after)) sh
  | stores (size total : Nat) (after : After) (at_ : w.pc = .store size total after) :
      Moved sh k w answer (w.goto (.unlock after))
        { sh with total_size := Function.update sh.total_size w.phase (total + size) }
  | unlocks (after : After) (pc : Pc) (at_ : w.pc = .unlock after) (quiet : pc.Quiet) :
      Moved sh k w answer (w.goto pc) { sh with mutex := none }
  | ends (at_ : w.pc = .clearRunning) :
      Moved sh k w answer (w.goto .done)
        (sh.setSlot w.i { sh.thread w.i with running := false })

variable {sh sh' : Shared} {k : Nat} {w w' : Worker} {answer : Int}

theorem downloadThread_moved (hphase : w.phase = .download)
    (h : downloadThread sh w answer = some (w', sh')) : Moved sh k w answer w' sh' := by
  unfold downloadThread at h
  cases hpc : w.pc with
  | send =>
      have hat : w.pc.Talks := by simp [hpc, Pc.Talks]
      have hall : w.uncounted answer = 0 := by simp [Worker.uncounted, hphase, hpc]
      simp only [hpc] at h
      split at h
      · cases h
        exact .talks .select hat trivial hall
      · cases h
        exact .talks .close hat trivial hall
  | select =>
      simp only [hpc] at h
      cases h
      exact .talks _ (by simp [hpc, Pc.Talks]) trivial (by simp [Worker.uncounted, hphase, hpc])
  | recv ready =>
      have hat : w.pc.Talks := by simp [hpc, Pc.Talks]
      simp only [hpc] at h
      split at h
      · cases h
      · cases ready with
        | false =>
            simp only [Bool.false_eq_true, if_false] at h
            cases h
            rw [← hphase]
            exact .drops .select hat trivial (by simp [Worker.uncounted, hphase, hpc])
        | true =>
            have hall : w.uncounted answer = 0 := by simp [Worker.uncounted, hphase, hpc]
            simp only [if_true] at h
            split at h
            · cases h
              exact .talks .close hat trivial hall
            · cases h
              rw [← hphase]
              exact .counts .receive hat hall
  | testStop after =>
      have hat : w.pc.Talks := by simp [hpc, Pc.Talks]
      have hall : w.uncounted answer = 0 := by simp [Worker.uncounted, hphase, hpc]
      simp only [hpc] at h
      split at h
      · cases h
        exact .talks .close hat trivial hall
      · cases h
        exact .talks .select hat trivial hall
  | _ => simp [hpc] at h

theorem uploadThread_moved (hphase : w.phase = .upload)
    (h : uploadThread sh w answer = some (w', sh')) : Moved sh k w answer w' sh' := by
  unfold uploadThread at h
  cases hpc : w.pc with
  | send =>
      have hat : w.pc.Talks := by simp [hpc, Pc.Talks]
      simp only [hpc] at h
      split at h
      · cases h
      · split at h
        · rename_i hfull
          cases h
          rw [← hphase]
          exact .counts .header hat (by simp [Worker.uncounted, hphase, hpc, hfull])
        · rename_i hshort
          cases h
          rw [← hphase]
          exact .drops .close hat trivial (by simp [Worker.uncounted, hphase, hpc, hshort])
  | sendBlock j =>
      have hat : w.pc.Talks := by simp [hpc, Pc.Talks]
      simp only [hpc] at h
      split at h
      · rename_i hj
        split at h
        · cases h
        · split at h
          · rename_i hfull
            cases h
            rw [← hphase]
            exact .counts (.block j) hat (by simp [Worker.uncounted, hphase, hpc, hfull])
          · rename_i hshort
            cases h
            rw [← hphase]
            exact .drops .close hat trivial (by simp [Worker.uncounted, hphase, hpc, hj, hshort])
      · rename_i hj
        cases h
        exact .talks .select hat trivial (by simp [Worker.uncounted, hphase, hpc, hj])
  | testStop after =>
      have hat : w.pc.Talks := by simp [hpc, Pc.Talks]
      have hall : w.uncounted answer = 0 := by simp [Worker.uncounted, hphase, hpc]
      simp only [hpc] at h
      split at h
      · cases h
        exact .talks .close hat trivial hall
      · cases after with
        | block j =>
            cases h
            exact .talks (.sendBlock (j + 1)) hat trivial hall
        | _ => cases h
  | select =>
      simp only [hpc] at h
      cases h
      exact .talks _ (by simp [hpc, Pc.Talks]) trivial (by simp [Worker.uncounted, hphase, hpc])
  | recv ready =>
      have hat : w.pc.Talks := by simp [hpc, Pc.Talks]
      have hall : w.uncounted answer = 0 := by simp [Worker.uncounted, hphase, hpc]
      simp only [hpc] at h
      split at h
      · cases h
      · split at h
        · cases h
          exact .talks .close hat trivial hall
        · cases h
          exact .talks .select hat trivial hall
  | _ => simp [hpc] at h

theorem workerStep_moved (h : workerStep sh k w answer = some (w', sh')) :
    Moved sh k w answer w' sh' := by
  unfold workerStep at h
  cases hpc : w.pc with
  | start | socket | connect | requestUrl | domainName =>
      simp only [hpc] at h
      cases h
      exact .opens (by simp [hpc, Pc.Opens])
  | lock size after =>
      simp only [hpc, addSize] at h
      split at h
      · rename_i hfree
        cases h
        exact .locks size after hpc hfree
      · cases h
  | load size after =>
      simp only [hpc, addSize] at h
      cases h
      exact .loads size after hpc
  | store size total after =>
      simp only [hpc, addSize] at h
      cases h
      exact .stores size total after hpc
  | unlock after =>
      simp only [hpc, addSize] at h
      cases after with
      | header =>
          cases h
          exact .unlocks .header _ hpc trivial
      | receive =>
          cases h
          exact .unlocks .receive _ hpc trivial
      | block j =>
          cases h
          exact .unlocks (.block j) _ hpc trivial
  | close =>
      simp only [hpc, finish] at h
      cases h
      refine .talks _ (by simp [hpc, Pc.Talks]) trivial ?_
      cases hphase : w.phase <;> simp [Worker.uncounted, hphase, hpc]
  | clearRunning =>
      simp only [hpc, finish] at h
      cases h
      exact .ends hpc
  | done => simp [hpc, finish] at h
  | send | sendBlock j | select | recv ready | testStop after =>
      simp only [hpc] at h
      cases hphase : w.phase with
      | download =>
          rw [hphase] at h
          exact downloadThread_moved hphase h
      | upload =>
          rw [hphase] at h
          exact uploadThread_moved hphase h

theorem openConnection_frame (sh : Shared) (answer : Int) (h : w.pc.Opens) :
    (openConnection sh w answer).phase = w.phase ∧ (openConnection sh w answer).arg = w.arg ∧
      (openConnection sh w answer).pc.Quiet := by
  unfold openConnection
  cases hpc : w.pc with
  | socket => by_cases hanswer : answer = -1 <;> simp [hanswer, Worker.goto, Pc.Quiet]
  | connect => by_cases hanswer : answer = -1 <;> simp [hanswer, Pc.Quiet]
  | start | requestUrl | domainName => simp [Pc.Quiet]
  | _ =>
      rw [hpc] at h
      cases h

theorem Pc.Quiet.ne_done {pc : Pc} (h : pc.Quiet) : pc ≠ .done := by
  rintro rfl
  exact h

theorem Moved.frame (h : Moved sh k w answer w' sh') : w'.phase = w.phase ∧ w'.arg = w.arg := by
  cases h with
  | opens at_ => exact ⟨(openConnection_frame _ _ at_).1, (openConnection_frame _ _ at_).2.1⟩
  | _ => exact ⟨rfl, rfl⟩

/-- A step ends the worker and clears its slot, or does neither. -/
theorem Moved.table (h : Moved sh k w answer w' sh') :
    (w.pc ≠ .clearRunning ∧ w'.pc ≠ .done ∧ sh'.thread = sh.thread) ∨
      (w.pc = .clearRunning ∧ w' = w.goto .done ∧
        sh' = sh.setSlot w.i { sh.thread w.i with running := false }) := by
  cases h with
  | ends at_ => exact .inr ⟨at_, rfl, rfl⟩
  | opens at_ =>
      refine .inl ⟨fun hpc => ?_, (openConnection_frame _ _ at_).2.2.ne_done, rfl⟩
      rw [hpc] at at_
      exact at_
  | talks pc at_ quiet | drops pc at_ quiet =>
      refine .inl ⟨fun hpc => ?_, quiet.ne_done, rfl⟩
      rw [hpc] at at_
      exact at_
  | counts after at_ =>
      refine .inl ⟨fun hpc => ?_, Pc.noConfusion, rfl⟩
      rw [hpc] at at_
      exact at_
  | unlocks after pc at_ quiet => exact .inl ⟨by simp [at_], quiet.ne_done, rfl⟩
  | locks size after at_ | loads size after at_ | stores size total after at_ =>
      exact .inl ⟨by simp [at_], Pc.noConfusion, rfl⟩

theorem Moved.done (h : Moved sh k w answer w' sh') :
    w.pc ≠ .done ∧ (w'.pc = .done → w.pc = .clearRunning) := by
  constructor
  · intro hpc
    cases h with
    | opens at_ | talks pc at_ | drops pc at_ | counts after at_ =>
        rw [hpc] at at_
        exact at_
    | locks size after at_ | loads size after at_ | stores size total after at_
    | unlocks after pc at_ | ends at_ =>
        rw [hpc] at at_
        cases at_
  · intro hdone
    cases h.table with
    | inl hkeeps =>
        obtain ⟨_, hnot, _⟩ := hkeeps
        exact absurd hdone hnot
    | inr hstarts =>
        obtain ⟨hpc, _, _⟩ := hstarts
        exact hpc

/-- The only part of the table that a worker writes is its `running` flag. -/
theorem Moved.thread (h : Moved sh k w answer w' sh') (j : Nat) :
    (sh'.thread j).thread_index = (sh.thread j).thread_index ∧
      (sh'.thread j).servinfo = (sh.thread j).servinfo ∧
      (sh'.thread j).domain_name = (sh.thread j).domain_name ∧
      (sh'.thread j).request_url = (sh.thread j).request_url ∧
      ((sh'.thread j).running = true →
        (sh.thread j).running = true ∧ (w'.pc = .done → j ≠ w.i)) := by
  cases h.table with
  | inl hkeeps =>
      obtain ⟨_, hnot, hsame⟩ := hkeeps
      rw [hsame]
      exact ⟨rfl, rfl, rfl, rfl, fun hrunning => ⟨hrunning, fun hdone => absurd hdone hnot⟩⟩
  | inr hstarts =>
      obtain ⟨_, rfl, rfl⟩ := hstarts
      by_cases hj : j = w.i
      · subst hj
        simp [Shared.setSlot]
      · simp [Shared.setSlot, hj]

/-- A worker takes the index of its slot in its first step. -/
theorem Moved.index (h : Moved sh k w answer w' sh') :
    (w.pc = .start → w'.i = (sh.thread w.arg).thread_index) ∧ (w.pc ≠ .start → w'.i = w.i) := by
  cases h with
  | opens at_ =>
      unfold openConnection
      cases hpc : w.pc with
      | start => simp
      | socket => by_cases hanswer : answer = -1 <;> simp [hanswer, Worker.goto]
      | connect | requestUrl | domainName => simp
      | _ =>
          rw [hpc] at at_
          exact at_.elim
  | talks pc at_ | drops pc at_ | counts after at_ =>
      refine ⟨fun hpc => ?_, fun _ => rfl⟩
      rw [hpc] at at_
      exact at_.elim
  | locks size after at_ | loads size after at_ | stores size total after at_
  | unlocks after pc at_ | ends at_ =>
      exact ⟨fun hpc => by simp [hpc] at at_, fun _ => rfl⟩

/-- What a worker knows of its server it read from its slot. -/
theorem Moved.reads (h : Moved sh k w answer w' sh') :
    (w'.servinfo = w.servinfo ∨
        (w.pc ≠ .start ∧ w'.servinfo = some (sh.thread w.i).servinfo)) ∧
      (w'.request_url = w.request_url ∨
        (w.pc ≠ .start ∧ w'.request_url = some (sh.thread w.i).request_url)) ∧
      (w'.domain_name = w.domain_name ∨
        (w.pc ≠ .start ∧ w'.domain_name = some (sh.thread w.i).domain_name)) := by
  cases h with
  | opens at_ =>
      unfold openConnection
      cases hpc : w.pc with
      | socket => by_cases hanswer : answer = -1 <;> simp [hanswer, Worker.goto]
      | start | connect | requestUrl | domainName => simp
      | _ =>
          rw [hpc] at at_
          exact at_.elim
  | _ => exact ⟨.inl rfl, .inl rfl, .inl rfl⟩

end LinuxTraining.Speedtest
