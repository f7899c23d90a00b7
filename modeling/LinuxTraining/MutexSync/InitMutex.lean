import LinuxTraining.MutexSync.ReadFile

/-!
`init_mutex` of `mutex_sync.c` with the readers that it creates. Every call of
`pthread_create` writes the same handle, and every handle is joined.
-/
namespace LinuxTraining.MutexSync
open Execution Stdio Threads

structure Config where
  text : List Char
  thread_ids : Nat → Int
  max_threads : Nat

inductive MainPc where
  | create (i : Nat)
  | join (i : Nat)
  | destroy
  | exited
  deriving DecidableEq

/-- `threads` are the handles that were filled in, each with the position of its reader. -/
structure Process where
  main : MainPc
  threads : Nat → Option Nat
  destroyed : Bool
  state : State

/-- `created` says whether `pthread_create` succeeds. -/
inductive Event where
  | main (created : Bool)
  | reader (turn : Turn)
  deriving DecidableEq

def begin : Process where
  main := .create 0
  threads := fun _ => none
  destroyed := false
  state := ⟨[], emptyShared⟩

def State.isDone (s : State) (k : Nat) : Bool :=
  match s.readers[k]? with
  | some r => r.pc = .done
  | none => false

def initMutex (cfg : Config) (p : Process) (created : Bool) : Option Process :=
  match p.main with
  | .create i =>
      if i < cfg.max_threads then
        if created then
          some { p with
            main := .create (i + 1)
            threads := Function.update p.threads 0 (some p.state.readers.length)
            state := { p.state with
              readers := p.state.readers ++ [.created (cfg.thread_ids i)] } }
        else some { p with main := .create (i + 1) }
      else some { p with main := .join 0 }
  | .join i =>
      if i < cfg.max_threads then
        match p.threads i with
        | none => some { p with main := .join (i + 1) }
        | some k => if p.state.isDone k then some { p with main := .join (i + 1) } else none
      else some { p with main := .destroy }
  | .destroy => some { p with main := .exited, destroyed := true }
  | .exited => none

def next (cfg : Config) (p : Process) : Event → Option Process
  | .main created => initMutex cfg p created
  | .reader turn => (step cfg.text p.state turn).map fun state => { p with state }

/-- When the mutex is destroyed, every reader has finished. -/
def DestroysLast (p : Process) : Prop :=
  p.destroyed = true → ∀ r ∈ p.state.readers, r.pc = .done

/-- No reader is about to lock a destroyed mutex. -/
def LocksBefore (p : Process) : Prop :=
  p.destroyed = true → ∀ r ∈ p.state.readers, r.pc ≠ .lock

/-- Everything a step of `init_mutex` can do. -/
inductive MainMoved (cfg : Config) (p : Process) : Process → Prop where
  | creates (i : Nat) (at_ : p.main = .create i) (below : i < cfg.max_threads) :
      MainMoved cfg p { p with
        main := .create (i + 1)
        threads := Function.update p.threads 0 (some p.state.readers.length)
        state := { p.state with
          readers := p.state.readers ++ [.created (cfg.thread_ids i)] } }
  | fails (i : Nat) (at_ : p.main = .create i) (below : i < cfg.max_threads) :
      MainMoved cfg p { p with main := .create (i + 1) }
  | allCreated (i : Nat) (at_ : p.main = .create i) (above : ¬i < cfg.max_threads) :
      MainMoved cfg p { p with main := .join 0 }
  | unfilled (i : Nat) (at_ : p.main = .join i) (handle : p.threads i = none) :
      MainMoved cfg p { p with main := .join (i + 1) }
  | joins (i k : Nat) (at_ : p.main = .join i) (handle : p.threads i = some k)
      (done : p.state.isDone k = true) : MainMoved cfg p { p with main := .join (i + 1) }
  | allJoined (i : Nat) (at_ : p.main = .join i) (above : ¬i < cfg.max_threads) :
      MainMoved cfg p { p with main := .destroy }
  | destroys (at_ : p.main = .destroy) :
      MainMoved cfg p { p with main := .exited, destroyed := true }

variable {cfg : Config} {text : List Char} {p q : Process} {k rand : Nat} {r r' : Reader}
  {sh sh' : Shared} {s t : State}

def solo (text : List Char) (k : Nat) : Reader × Shared → Nat → Option (Reader × Shared) :=
  fun (r, sh) rand => readFile text sh k r rand

theorem run_solo {rands : List Nat} (hr : s.readers[k]? = some r)
    (h : run (solo text k) (r, s.shared) rands = some (r', sh')) :
    run (step text) s (rands.map fun rand => ⟨k, rand⟩) = some ⟨s.readers.set k r', sh'⟩ := by
  induction rands generalizing s r with
  | nil =>
      cases h
      obtain ⟨hk, rfl⟩ := List.getElem?_eq_some_iff.mp hr
      rw [List.set_getElem_self]
      rfl
  | cons rand rands ih =>
      obtain ⟨⟨v, sh⟩, hstep, hrest⟩ := run_cons.mp h
      have hk := (List.getElem?_eq_some_iff.mp hr).1
      have hv : (s.readers.set k v)[k]? = some v := by simp [hk]
      have hlater := ih (s := ⟨s.readers.set k v, sh⟩) hv hrest
      rw [List.set_set] at hlater
      refine run_cons.mpr ⟨⟨s.readers.set k v, sh⟩, ?_, hlater⟩
      have hread : readFile text s.shared k r rand = some (v, sh) := hstep
      simp [step, hr, hread]

theorem run_readers {turns : List Turn} (h : run (step cfg.text) p.state turns = some t) :
    run (next cfg) p (turns.map Event.reader) = some { p with state := t } := by
  induction turns generalizing p with
  | nil =>
      cases h
      rfl
  | cons turn turns ih =>
      obtain ⟨m, hstep, hrest⟩ := run_cons.mp h
      refine run_cons.mpr ⟨{ p with state := m }, ?_, ih hrest⟩
      simp [next, hstep]

theorem exists_other_draw (thread_id : Int) : ∃ rand, getRandomThreadId rand ≠ thread_id := by
  by_cases h : thread_id = 1
  · exact ⟨1, by rw [h]; decide⟩
  · exact ⟨0, fun heq => h heq.symm⟩

/-- One turn of the loop, in which the reader stores nothing. -/
theorem solo_line (text : List Char) (k : Nat) (hpc : r.pc = .fgets) (hmore : r.fp ≠ [])
    (hfree : sh.mutex = none) :
    ∃ rands r', run (solo text k) (r, sh) rands = some (r', sh) ∧ r'.pc = .fgets ∧
      r'.fp = (fgets (maxFile - 1) r.fp).2 := by
  obtain ⟨rand, hother⟩ := exists_other_draw r.thread_id
  have hline : (fgets (maxFile - 1) r.fp).1 ≠ [] := mt fgets_eq_nil_iff.mp hmore
  have hsame : { sh with mutex := none } = sh := by rw [← hfree]
  by_cases hroom : sh.count < maxSize
  · refine ⟨[0, 0, 0, rand, 0], { r.read with pc := .fgets }, ?_, rfl, rfl⟩
    simp [run, solo, readFile, hpc, hline, hfree, hroom, hother, Reader.goto, Reader.read, hsame]
  · refine ⟨[0, 0, 0, 0], { r.read with pc := .fgets }, ?_, rfl, rfl⟩
    simp [run, solo, readFile, hpc, hline, hfree, hroom, Reader.goto, Reader.read, hsame]

/-- A reader that is left alone comes to the end of the file. -/
theorem solo_done (hpc : r.pc = .fgets) (hfree : sh.mutex = none) :
    ∃ rands r', run (solo text k) (r, sh) rands = some (r', sh) ∧ r'.pc = .done := by
  induction hn : r.fp.length using Nat.strong_induction_on generalizing r with
  | _ n ih =>
      by_cases hmore : r.fp = []
      · refine ⟨[0, 0], r.goto .done, ?_, rfl⟩
        simp [run, solo, readFile, hpc, hmore, fgets_eq_nil_iff, Reader.goto]
      · obtain ⟨rands, v, hv, hvpc, hvfp⟩ := solo_line text k hpc hmore hfree
        have hroom : 1 ≤ maxFile - 1 := by decide
        have hlt := fgets_rest_lt hroom hmore
        obtain ⟨more, r', hr', hdone⟩ := ih v.fp.length (by rw [hvfp, ← hn]; exact hlt) hvpc rfl
        exact ⟨rands ++ more, r', run_append.mpr ⟨_, hv, hr'⟩, hdone⟩

theorem created_done (text : List Char) (k : Nat) (hfree : sh.mutex = none) (thread_id : Int) :
    ∃ rands r', run (solo text k) (.created thread_id, sh) rands = some (r', sh) ∧
      r'.pc = .done := by
  have hopened : solo text k (.created thread_id, sh) 0 =
      some ({ Reader.created thread_id with fp := text, pc := .fgets }, sh) := rfl
  obtain ⟨rands, r', hr', hdone⟩ :=
    solo_done (r := { Reader.created thread_id with fp := text, pc := .fgets }) rfl hfree
  exact ⟨0 :: rands, r', run_cons.mpr ⟨_, hopened, hr'⟩, hdone⟩

def filled (cfg : Config) (n : Nat) : Process where
  main := .create n
  threads := fun j => if j = 0 ∧ 0 < n then some (n - 1) else none
  destroyed := false
  state := ⟨(List.range n).map fun i => .created (cfg.thread_ids i), emptyShared⟩

theorem run_creates {n : Nat} (h : n ≤ cfg.max_threads) :
    run (next cfg) begin (List.replicate n (.main true)) = some (filled cfg n) := by
  induction n with
  | zero => simp [run, begin, filled]
  | succ n ih =>
      have hthreads : Function.update (filled cfg n).threads 0 (some n) =
          (filled cfg (n + 1)).threads := by
        funext j
        cases j with
        | zero => simp [filled]
        | succ j => simp [filled]
      have hnext : next cfg (filled cfg n) (.main true) = some (filled cfg (n + 1)) := by
        have hlt : n < cfg.max_threads := h
        have hlength : (filled cfg n).state.readers.length = n := by simp [filled]
        have hmain : (filled cfg n).main = .create n := rfl
        simp only [next, initMutex, hmain, hlt, if_true, hlength, hthreads]
        simp [filled, List.range_succ]
      rw [List.replicate_succ']
      exact run_append.mpr ⟨_, ih (Nat.le_of_succ_le h), run_cons.mpr ⟨_, hnext, rfl⟩⟩

/-- Handles that were not filled in are joined at once. -/
theorem run_joins (cfg : Config) {i : Nat} (hmain : p.main = .join i) (hi : i ≤ cfg.max_threads)
    (hunfilled : ∀ j, i ≤ j → p.threads j = none) :
    ∃ as, run (next cfg) p as = some { p with main := .join cfg.max_threads } := by
  induction hn : cfg.max_threads - i generalizing p i with
  | zero =>
      have hlast : i = cfg.max_threads := by omega
      refine ⟨[], ?_⟩
      rw [← hlast, ← hmain]
      rfl
  | succ n ih =>
      obtain ⟨as, has⟩ := ih (p := { p with main := .join (i + 1) }) rfl (by omega)
        (fun j hj => hunfilled j (by omega)) (by omega)
      refine ⟨.main false :: as, run_cons.mpr ⟨_, ?_, has⟩⟩
      have hlt : i < cfg.max_threads := by omega
      simp [next, initMutex, hmain, hlt, hunfilled i (Nat.le_refl i)]

/-- All readers are created. The last one finishes, and the first one has not begun when the mutex
is gone. -/
theorem run_to_destroyed (hmany : 2 ≤ cfg.max_threads) :
    ∃ as p, run (next cfg) begin as = some p ∧ p.destroyed = true ∧
      p.state.readers.length = cfg.max_threads ∧
      p.state.readers[0]? = some (.created (cfg.thread_ids 0)) ∧ p.state.shared = emptyShared := by
  let last := cfg.max_threads - 1
  let created := filled cfg cfg.max_threads
  have hlength : created.state.readers.length = cfg.max_threads := by simp [created, filled]
  have hlast : created.state.readers[last]? = some (.created (cfg.thread_ids last)) := by
    have hlt : last < cfg.max_threads := by omega
    simp [created, filled, hlt]
  have hcreated : run (next cfg) created [.main false] = some { created with main := .join 0 } := by
    simp [run, next, initMutex, created, filled]
  have hunlocked : emptyShared.mutex = none := rfl
  obtain ⟨rands, r', hsolo, hdone⟩ := created_done cfg.text last hunlocked (cfg.thread_ids last)
  have hreader : run (next cfg) { created with main := .join 0 } _ = _ :=
    run_readers (run_solo (s := created.state) hlast hsolo)
  let finished : Process := { created with
    main := .join 0
    state := ⟨created.state.readers.set last r', emptyShared⟩ }
  have hjoined : next cfg finished (.main false) = some { finished with main := .join 1 } := by
    have hzero : 0 < cfg.max_threads := by omega
    have hhandle : finished.threads 0 = some last := by
      simp [finished, created, filled, hzero, last]
    have hlt : last < created.state.readers.length := by omega
    have hend : finished.state.isDone last = true := by
      simp [finished, State.isDone, hlt, hdone]
    simp only [next, initMutex, show finished.main = .join 0 from rfl, hzero, if_true, hhandle,
      hend]
  obtain ⟨joins, hjoins⟩ := run_joins cfg (p := { finished with main := .join 1 }) rfl
    (by omega) fun j hj => by
      have hne : j ≠ 0 := by omega
      simp [finished, created, filled, hne]
  have hdestroy : run (next cfg) { finished with main := .join cfg.max_threads }
      [.main false, .main false] =
      some { finished with main := .exited, destroyed := true } := by
    simp [run, next, initMutex]
  refine ⟨_, _, run_append.mpr ⟨_, run_creates le_rfl, run_append.mpr ⟨_, hcreated,
    run_append.mpr ⟨finished, hreader, run_cons.mpr ⟨_, hjoined,
      run_append.mpr ⟨_, hjoins, hdestroy⟩⟩⟩⟩⟩, rfl, ?_, ?_, rfl⟩
  · rw [← hlength]
    exact List.length_set
  · have hne : last ≠ 0 := by omega
    have hpos : 0 < cfg.max_threads := by omega
    have hfirst : created.state.readers[0]? = some (.created (cfg.thread_ids 0)) := by
      simp [created, filled, hpos]
    exact (List.getElem?_set_ne hne).trans hfirst

/-- The first reader comes to its lock, if the file has a line. -/
theorem run_to_lock (hmany : 2 ≤ cfg.max_threads) (hmore : cfg.text ≠ []) :
    ∃ as p, run (next cfg) begin as = some p ∧ p.state.readers.length = cfg.max_threads ∧
      ¬LocksBefore p := by
  obtain ⟨as, p, hp, hdestroyed, hlength, hfirst, hshared⟩ := run_to_destroyed hmany
  have hline : (fgets (maxFile - 1) cfg.text).1 ≠ [] := mt fgets_eq_nil_iff.mp hmore
  let opened : Reader :=
    { Reader.created (cfg.thread_ids 0) with fp := cfg.text, pc := .fgets }
  have hsolo : run (solo cfg.text 0) (.created (cfg.thread_ids 0), p.state.shared) [0, 0] =
      some (opened.read, p.state.shared) := by
    simp [run, solo, readFile, Reader.created, hline, opened]
  have hread := run_readers (p := p) (run_solo hfirst hsolo)
  refine ⟨_, _, run_append.mpr ⟨p, hp, hread⟩, ?_, fun hbefore => ?_⟩
  · rw [← hlength]
    exact List.length_set
  · have hmem : opened.read ∈ p.state.readers.set 0 opened.read :=
      List.mem_set (List.getElem?_eq_some_iff.mp hfirst).1 _
    exact hbefore hdestroyed opened.read hmem rfl

theorem initMutex_moved {created : Bool} (h : initMutex cfg p created = some q) :
    MainMoved cfg p q := by
  unfold initMutex at h
  cases hmain : p.main with
  | create i =>
      simp only [hmain] at h
      split at h
      · next hbelow =>
        cases created with
        | true =>
            cases h
            exact .creates i hmain hbelow
        | false =>
            cases h
            exact .fails i hmain hbelow
      · next habove =>
        cases h
        exact .allCreated i hmain habove
  | join i =>
      simp only [hmain] at h
      split at h
      · split at h
        · next hhandle =>
          cases h
          exact .unfilled i hmain hhandle
        · next k hhandle =>
          split at h
          · next hdone =>
            cases h
            exact .joins i k hmain hhandle hdone
          · cases h
      · next habove =>
        cases h
        exact .allJoined i hmain habove
  | destroy =>
      simp only [hmain] at h
      cases h
      exact .destroys hmain
  | exited => simp [hmain] at h

theorem next_reader {turn : Turn} (h : next cfg p (.reader turn) = some q) :
    ∃ r r' sh, p.state.readers[turn.reader]? = some r ∧
      Moved cfg.text p.state.shared turn.reader r r' sh ∧
      q = { p with state := ⟨p.state.readers.set turn.reader r', sh⟩ } := by
  obtain ⟨t, hstep, rfl⟩ := Option.map_eq_some_iff.mp h
  obtain ⟨r, r', sh, hr, hmoved, rfl⟩ := step_moved hstep
  exact ⟨r, r', sh, hr, hmoved, rfl⟩

theorem Moved.not_done (h : Moved text sh k r r' sh') : r.pc ≠ .done := by
  intro hdone
  cases h with
  | leaves at_ => cases at_ with | _ at_ => rw [at_] at hdone; cases hdone
  | opens at_ | reads at_ | ends at_ | locks at_ | tests at_ | draws at_ | prints at_
  | stores at_ | increments at_ | unlocks at_ | closes at_ =>
      rw [at_] at hdone
      cases hdone

def Joins (cfg : Config) (p : Process) : Prop :=
  match p.main with
  | .create i =>
      i ≤ cfg.max_threads ∧ p.state.readers.length ≤ i ∧
        (p.state.readers ≠ [] → p.threads 0 = some 0)
  | .join 0 =>
      p.state.readers.length ≤ cfg.max_threads ∧ (p.state.readers ≠ [] → p.threads 0 = some 0)
  | .join (_ + 1) | .destroy | .exited => ∀ r ∈ p.state.readers, r.pc = .done

def Alive (p : Process) : Prop := p.destroyed = true → p.main = .exited

theorem Alive.step {e : Event} (alive : Alive p) (h : next cfg p e = some q) : Alive q := by
  cases e with
  | reader turn =>
      obtain ⟨r, r', sh, _, _, rfl⟩ := next_reader h
      exact alive
  | main created =>
      intro hdestroyed
      cases initMutex_moved h with
      | destroys at_ => rfl
      | creates i at_ | fails i at_ | allCreated i at_ | unfilled i at_ | joins i k at_
      | allJoined i at_ =>
          have hexited := alive hdestroyed
          rw [at_] at hexited
          cases hexited

/-- A list of one reader at most, whose only reader is done. -/
theorem all_done (hfew : p.state.readers.length ≤ 1) (hdone : p.state.isDone 0 = true) :
    ∀ r ∈ p.state.readers, r.pc = .done := by
  unfold State.isDone at hdone
  intro r hr
  obtain ⟨k, hk⟩ := List.mem_iff_getElem?.mp hr
  have hzero : k = 0 := by
    have hlt := (List.getElem?_eq_some_iff.mp hk).1
    omega
  rw [hzero] at hk
  rw [hk] at hdone
  exact of_decide_eq_true hdone

theorem Joins.reader {turn : Turn} (joins : Joins cfg p)
    (hr : p.state.readers[turn.reader]? = some r)
    (h : Moved cfg.text p.state.shared turn.reader r r' sh) :
    Joins cfg { p with state := ⟨p.state.readers.set turn.reader r', sh⟩ } := by
  have hmem := List.mem_of_getElem? hr
  have hne : p.state.readers ≠ [] := List.ne_nil_of_mem hmem
  unfold Joins at joins ⊢
  cases hmain : p.main with
  | create i =>
      simp only [hmain, List.length_set] at joins ⊢
      exact ⟨joins.1, joins.2.1, fun _ => joins.2.2 hne⟩
  | join i =>
      cases i with
      | zero =>
          simp only [hmain, List.length_set] at joins ⊢
          exact ⟨joins.1, fun _ => joins.2 hne⟩
      | succ i =>
          simp only [hmain] at joins
          exact absurd (joins r hmem) h.not_done
  | destroy | exited =>
      simp only [hmain] at joins
      exact absurd (joins r hmem) h.not_done

theorem Joins.main (hfew : cfg.max_threads ≤ 1) (joins : Joins cfg p) (h : MainMoved cfg p q) :
    Joins cfg q := by
  unfold Joins at joins
  cases h with
  | creates i at_ below =>
      simp only [at_] at joins
      have hnil : p.state.readers = [] := List.length_eq_zero_iff.mp (by omega)
      refine ⟨below, ?_, fun _ => ?_⟩
      · simp [hnil]
      · simp [hnil]
  | fails i at_ below =>
      simp only [at_] at joins
      exact ⟨below, Nat.le_succ_of_le joins.2.1, joins.2.2⟩
  | allCreated i at_ above =>
      simp only [at_] at joins
      exact ⟨Nat.le_trans joins.2.1 joins.1, joins.2.2⟩
  | unfilled i at_ handle =>
      cases i with
      | zero =>
          simp only [at_] at joins
          intro r hr
          rw [joins.2 (List.ne_nil_of_mem hr)] at handle
          cases handle
      | succ i =>
          simp only [at_] at joins
          exact joins
  | joins i k at_ handle done =>
      cases i with
      | zero =>
          simp only [at_] at joins
          intro r hr
          rw [joins.2 (List.ne_nil_of_mem hr)] at handle
          cases handle
          exact all_done (by omega) done r hr
      | succ i =>
          simp only [at_] at joins
          exact joins
  | allJoined i at_ above =>
      cases i with
      | zero =>
          simp only [at_] at joins
          intro r hr
          have hpos : 0 < p.state.readers.length := List.length_pos_of_mem hr
          omega
      | succ i =>
          simp only [at_] at joins
          exact joins
  | destroys at_ =>
      simp only [at_] at joins
      exact joins

theorem Joins.step {e : Event} (hfew : cfg.max_threads ≤ 1) (joins : Joins cfg p)
    (h : next cfg p e = some q) : Joins cfg q := by
  cases e with
  | main created => exact joins.main hfew (initMutex_moved h)
  | reader turn =>
      obtain ⟨r, r', sh, hr, hmoved, rfl⟩ := next_reader h
      exact joins.reader hr hmoved

def Reader.Lineless (r : Reader) : Prop :=
  r.fp = [] ∧ (r.pc = .fopen ∨ r.pc = .fgets ∨ r.pc = .fclose ∨ r.pc = .done)

theorem Reader.Lineless.moved (hempty : text = []) (lineless : r.Lineless)
    (h : Moved text sh k r r' sh') : r'.Lineless := by
  obtain ⟨hfp, hpc⟩ := lineless
  cases h with
  | opens at_ => exact ⟨hempty, .inr (.inl rfl)⟩
  | reads at_ more => exact absurd hfp more
  | ends at_ => exact ⟨hfp, .inr (.inr (.inl rfl))⟩
  | closes at_ => exact ⟨hfp, .inr (.inr (.inr rfl))⟩
  | leaves at_ => cases at_ with | _ at_ => simp [at_] at hpc
  | locks at_ | tests at_ | draws at_ | prints at_ | stores at_ | increments at_ | unlocks at_ =>
      simp [at_] at hpc

theorem lineless_step {e : Event} (hempty : cfg.text = [])
    (lineless : ∀ r ∈ p.state.readers, r.Lineless) (h : next cfg p e = some q) :
    ∀ r ∈ q.state.readers, r.Lineless := by
  cases e with
  | reader turn =>
      obtain ⟨r, r', sh, hr, hmoved, rfl⟩ := next_reader h
      exact forall_moved lineless ((lineless r (List.mem_of_getElem? hr)).moved hempty hmoved)
  | main created =>
      cases initMutex_moved h with
      | creates i at_ below => exact forall_created lineless ⟨rfl, .inl rfl⟩
      | _ => exact lineless

/-- Every reader has finished when the mutex is destroyed, in all runs, exactly if there is one
reader at most; and no reader comes to lock it afterwards exactly then, or if there is nothing
to read. -/
theorem destroyed_last_iff (cfg : Config) :
    ((∀ as p, run (next cfg) begin as = some p → DestroysLast p) ↔ cfg.max_threads ≤ 1) ∧
      ((∀ as p, run (next cfg) begin as = some p → LocksBefore p) ↔
        cfg.max_threads ≤ 1 ∨ cfg.text = []) := by
  have hlast : cfg.max_threads ≤ 1 →
      ∀ as p, run (next cfg) begin as = some p → DestroysLast p := by
    intro hfew as p hp hdestroyed
    have joins := invariant_run (fun _ _ _ hs hstep => Joins.step hfew hs hstep)
      (show Joins cfg begin from ⟨Nat.zero_le _, Nat.le_refl _, fun h => absurd rfl h⟩) hp
    have alive := invariant_run (fun _ _ _ hs hstep => Alive.step hs hstep)
      (show Alive begin from fun h => by cases h) hp
    simpa only [Joins, alive hdestroyed] using joins
  refine ⟨⟨fun hall => ?_, hlast⟩, fun hall => ?_, fun hcase => ?_⟩
  · by_contra hmany
    have htwo : 2 ≤ cfg.max_threads := by omega
    obtain ⟨as, p, hp, hdestroyed, -, hfirst, -⟩ := run_to_destroyed htwo
    have hend := hall as p hp hdestroyed _ (List.mem_of_getElem? hfirst)
    cases hend
  · by_contra hneither
    obtain ⟨hmany, hmore⟩ := not_or.mp hneither
    have htwo : 2 ≤ cfg.max_threads := by omega
    obtain ⟨as, p, hp, -, hnot⟩ := run_to_lock htwo hmore
    exact hnot (hall as p hp)
  · intro as p hp hdestroyed r hr
    cases hcase with
    | inl hfew =>
        rw [hlast hfew as p hp hdestroyed r hr]
        exact Pc.noConfusion
    | inr hempty =>
        have lineless := invariant_run (fun _ _ _ hs hstep => lineless_step hempty hs hstep)
          (show ∀ r ∈ begin.state.readers, r.Lineless from fun r hr => nomatch hr) hp
        obtain ⟨_, hpc⟩ := lineless r hr
        rcases hpc with hpc | hpc | hpc | hpc <;> rw [hpc] <;> exact Pc.noConfusion

def threeReaders : Config := ⟨"50\n".toList, fun i => (i : Int) + 1, 3⟩

/-- All three readers are created, and the last one is the only one that is joined. -/
theorem destroyed_before_first : ∃ as p, run (next threeReaders) begin as = some p ∧
    p.state.readers.length = 3 ∧ ¬DestroysLast p ∧ ¬LocksBefore p := by
  have htwo : 2 ≤ threeReaders.max_threads := by decide
  obtain ⟨as, p, hp, hthree, hlocks⟩ := run_to_lock htwo (by decide)
  refine ⟨as, p, hp, hthree, fun hlast => hlocks fun hdestroyed r hr => ?_, hlocks⟩
  rw [hlast hdestroyed r hr]
  exact Pc.noConfusion

end LinuxTraining.MutexSync
