import LinuxTraining.Speedtest.PhaseChange
import LinuxTraining.Speedtest.RequestPath
import LinuxTraining.Speedtest.Turns

/-!
Which server the workers use. `get_best_server` picks a slot of the server list,
but both phases are started with slot 1, so the workers use the best server only
when that slot names the same host, address and directory.
-/
namespace LinuxTraining.Speedtest
open Execution Threads

/-- What the worker has read so far is the address, the domain name and the directory
of the server. -/
structure Targets (w : Worker) (server : ServerData) : Prop where
  servinfo : ∀ address, w.servinfo = some address → address = server.servinfo
  domain_name : ∀ name, w.domain_name = some name → name = server.domain_name
  directory : ∀ url, w.request_url = some url → directory url = directory (path server.url)

/-- `run_proc` with the servers that `get_nearest_server` found and the outcomes of the
probes. -/
def runProc (servers : Servers) (outcomes : Outcomes) (thread_nums : Nat) : Config :=
  ⟨(getBestServer servers outcomes).1, thread_nums⟩

def measured (outcomes : Outcomes) (i : Fin nearestServersNum) : Int :=
  probeLatency (lineBefore outcomes i) (outcomes i)

def address (servers : Servers) (outcomes : Outcomes) (i : Fin nearestServersNum) : SockAddr :=
  (outcomes i).resolved.getD (servers i).servinfo

/-- The url and the address of slot 1 name the same place as those of the slot with the
lowest latency, and no directory of its url mentions `upload.`. -/
structure SlotOneServes (servers : Servers) (outcomes : Outcomes) : Prop where
  agrees : ∀ b, Selected (measured outcomes) b →
    address servers outcomes 1 = address servers outcomes b ∧
      cutPort (probeHost (servers 1).url) = cutPort (probeHost (servers b).url) ∧
      directory (path (servers 1).url) = directory (path (servers b).url)
  plain : ∀ token ∈ directory (path (servers 1).url), mentions "upload." token = false

/-- A path that a worker of the phase may find in its slot: a download worker that is slow
may read what the upload phase wrote. -/
def IsRequest (cfg : Config) (phase : Phase) (url : Text) : Prop :=
  url = requestUrl .upload cfg.nearest_server.url ∨
    (phase = .download ∧ url = requestUrl .download cfg.nearest_server.url)

def Filled (cfg : Config) (s : State) : Prop :=
  let server := cfg.nearest_server
  match s.main with
  | .copyDomainName _ i => i < cfg.thread_nums ∧ (s.shared.thread i).servinfo = server.servinfo
  | .copyRequestUrl _ i =>
      i < cfg.thread_nums ∧ (s.shared.thread i).servinfo = server.servinfo ∧
        (s.shared.thread i).domain_name = server.domain_name
  | .testRunning phase i | .setIndex phase i | .setRunning phase i | .create phase i =>
      i < cfg.thread_nums ∧ (s.shared.thread i).servinfo = server.servinfo ∧
        (s.shared.thread i).domain_name = server.domain_name ∧
        (s.shared.thread i).request_url = requestUrl phase server.url
  | _ => True

def SlotLoaded (cfg : Config) (sh : Shared) (w : Worker) : Prop :=
  (sh.thread w.arg).servinfo = cfg.nearest_server.servinfo ∧
    (sh.thread w.arg).domain_name = cfg.nearest_server.domain_name ∧
    IsRequest cfg w.phase (sh.thread w.arg).request_url

/-- Slots with a worker, and what the workers read from them, belong to slot 1 of the
server list. -/
structure Loaded (cfg : Config) (s : State) : Prop where
  owned : Owned s
  filled : Filled cfg s
  below : ∀ w ∈ s.workers, w.arg < cfg.thread_nums
  slots : ∀ w ∈ s.workers, SlotLoaded cfg s.shared w
  servinfo : ∀ w ∈ s.workers, ∀ address, w.servinfo = some address →
    address = cfg.nearest_server.servinfo
  domain_name : ∀ w ∈ s.workers, ∀ name, w.domain_name = some name →
    name = cfg.nearest_server.domain_name
  request_url : ∀ w ∈ s.workers, ∀ url, w.request_url = some url → IsRequest cfg w.phase url

variable {cfg : Config} {s t : State} {sh' : Shared} {k : Nat} {w w' : Worker} {answer : Int}

theorem Loaded.start (cfg : Config) : Loaded cfg start where
  owned := Owned.start
  filled := trivial
  below := by simp [Speedtest.start]
  slots := by simp [Speedtest.start]
  servinfo := by simp [Speedtest.start]
  domain_name := by simp [Speedtest.start]
  request_url := by simp [Speedtest.start]

theorem Loaded.worker (loaded : Loaded cfg s) (hw : s.workers[k]? = some w)
    (h : Moved s.shared k w answer w' sh') :
    Loaded cfg { s with workers := s.workers.set k w', shared := sh' } := by
  have hmem := List.mem_of_getElem? hw
  obtain ⟨hphase, harg⟩ := h.frame
  obtain ⟨hservinfo, hrequest, hdomain⟩ := h.reads
  have hslot := loaded.slots w hmem
  refine ⟨loaded.owned.worker hw h, ?_, ?_, ?_, ?_, ?_, ?_⟩
  · have hfilled := loaded.filled
    unfold Filled at hfilled ⊢
    cases hmain : s.main <;> simp only [hmain] at hfilled ⊢ <;>
      simpa only [(h.thread _).2.1, (h.thread _).2.2.1, (h.thread _).2.2.2.1] using hfilled
  · refine forall_moved loaded.below ?_
    rw [harg]
    exact loaded.below w hmem
  · simp only [SlotLoaded, (h.thread _).2.1, (h.thread _).2.2.1, (h.thread _).2.2.2.1]
    refine forall_moved loaded.slots ?_
    rw [harg, hphase]
    exact hslot
  · refine forall_moved loaded.servinfo fun address haddress => ?_
    cases hservinfo with
    | inl hsame =>
        exact loaded.servinfo w hmem address (by rw [← hsame, haddress])
    | inr hreads =>
        obtain ⟨hpc, hread⟩ := hreads
        rw [hread, loaded.owned.index w hmem hpc] at haddress
        rw [← Option.some.inj haddress, hslot.1]
  · refine forall_moved loaded.domain_name fun name hname => ?_
    cases hdomain with
    | inl hsame =>
        exact loaded.domain_name w hmem name (by rw [← hsame, hname])
    | inr hreads =>
        obtain ⟨hpc, hread⟩ := hreads
        rw [hread, loaded.owned.index w hmem hpc] at hname
        rw [← Option.some.inj hname, hslot.2.1]
  · refine forall_moved loaded.request_url fun url hurl => ?_
    rw [hphase]
    cases hrequest with
    | inl hsame =>
        exact loaded.request_url w hmem url (by rw [← hsame, hurl])
    | inr hreads =>
        obtain ⟨hpc, hread⟩ := hreads
        rw [hread, loaded.owned.index w hmem hpc] at hurl
        rw [← Option.some.inj hurl]
        exact hslot.2.2

theorem Loaded.keep (loaded : Loaded cfg s) (owned : Owned t) (filled : Filled cfg t)
    (hworkers : t.workers = s.workers)
    (hslots : ∀ w ∈ s.workers, SlotLoaded cfg t.shared w) : Loaded cfg t where
  owned := owned
  filled := filled
  below := by
    rw [hworkers]
    exact loaded.below
  slots := by
    rw [hworkers]
    exact hslots
  servinfo := by
    rw [hworkers]
    exact loaded.servinfo
  domain_name := by
    rw [hworkers]
    exact loaded.domain_name
  request_url := by
    rw [hworkers]
    exact loaded.request_url

theorem SlotLoaded.setSlot {sh : Shared} {i : Nat} {slot : Slot} (h : SlotLoaded cfg sh w)
    (hslot : w.arg = i → slot.servinfo = cfg.nearest_server.servinfo ∧
      slot.domain_name = cfg.nearest_server.domain_name ∧
      IsRequest cfg w.phase slot.request_url) : SlotLoaded cfg (sh.setSlot i slot) w := by
  unfold SlotLoaded at h ⊢
  by_cases hi : w.arg = i
  · simpa [Shared.setSlot, hi] using hslot hi
  · simpa [Shared.setSlot, hi] using h

theorem Loaded.main {elapsed : Bool} (loaded : Loaded cfg s)
    (h : MainMoved cfg s elapsed t) : Loaded cfg t := by
  have howned := loaded.owned.main h
  have hfilled := loaded.filled
  unfold Filled at hfilled
  cases h with
  | copyServinfo phase i at_ below =>
      refine loaded.keep howned ⟨below, by simp [Shared.setSlot]⟩ rfl fun w hw => ?_
      have hslot := loaded.slots w hw
      refine hslot.setSlot fun hi => ⟨rfl, ?_, ?_⟩
      · rw [← hi]
        exact hslot.2.1
      · rw [← hi]
        exact hslot.2.2
  | copyDomainName phase i at_ =>
      simp only [at_] at hfilled
      refine loaded.keep howned ⟨hfilled.1, by simp [Shared.setSlot, hfilled.2],
        by simp [Shared.setSlot]⟩ rfl fun w hw => ?_
      have hslot := loaded.slots w hw
      refine hslot.setSlot fun hi => ⟨?_, rfl, ?_⟩
      · rw [← hi]
        exact hslot.1
      · rw [← hi]
        exact hslot.2.2
  | copyRequestUrl phase i at_ =>
      simp only [at_] at hfilled
      refine loaded.keep howned ⟨hfilled.1, by simp [Shared.setSlot, hfilled.2.1],
        by simp [Shared.setSlot, hfilled.2.2], by simp [Shared.setSlot]⟩ rfl fun w hw => ?_
      have hslot := loaded.slots w hw
      refine hslot.setSlot fun hi => ⟨?_, ?_, ?_⟩
      · rw [← hi]
        exact hslot.1
      · rw [← hi]
        exact hslot.2.1
      · cases phase with
        | upload => exact .inl rfl
        | download =>
            refine .inr ⟨?_, rfl⟩
            cases hphase : w.phase with
            | download => rfl
            | upload =>
                have hup := loaded.owned.phases w hw hphase
                rw [InUpload, at_] at hup
                cases hup
  | setIndex phase i at_ =>
      simp only [at_] at hfilled
      refine loaded.keep howned ?_ rfl fun w hw => ?_
      · simpa [Filled, Shared.setSlot] using hfilled
      · have hslot := loaded.slots w hw
        exact hslot.setSlot fun hi => hi ▸ hslot
  | setRunning phase i at_ =>
      simp only [at_] at hfilled
      refine loaded.keep howned ?_ rfl fun w hw => ?_
      · simpa [Filled, Shared.setSlot] using hfilled
      · have hslot := loaded.slots w hw
        exact hslot.setSlot fun hi => hi ▸ hslot
  | create phase i at_ =>
      simp only [at_] at hfilled
      have hnew : SlotLoaded cfg s.shared (.created phase i) := by
        refine ⟨hfilled.2.1, hfilled.2.2.1, ?_⟩
        rw [show (Worker.created phase i).arg = i from rfl, hfilled.2.2.2]
        cases phase with
        | upload => exact .inl rfl
        | download => exact .inr ⟨rfl, rfl⟩
      refine ⟨howned, trivial, ?_, ?_, ?_, ?_, ?_⟩
      · exact forall_created loaded.below hfilled.1
      · exact forall_created loaded.slots hnew
      · exact forall_created loaded.servinfo fun address haddress => by cases haddress
      · exact forall_created loaded.domain_name fun name hname => by cases hname
      · exact forall_created loaded.request_url fun url hurl => by cases hurl
  | testTime phase at_ =>
      refine loaded.keep howned trivial rfl fun w hw => ?_
      cases elapsed <;> exact loaded.slots w hw
  | free phase i at_ running =>
      simp only [at_] at hfilled
      exact loaded.keep howned hfilled rfl loaded.slots
  | endOfTurn phase i at_ _ | busy phase i at_ _ | goOn phase at_ | stopDownload at_
  | stopUpload at_ | sleep at_ | resetStop at_ | speedtestUpload at_ =>
      exact loaded.keep howned trivial rfl loaded.slots

theorem Loaded.step {e : Event} (loaded : Loaded cfg s)
    (h : Speedtest.step cfg s e = some t) : Loaded cfg t := by
  cases e with
  | main elapsed => exact loaded.main (mainStep_moved h)
  | worker k answer =>
      obtain ⟨w, w', sh', hw, hstep, rfl⟩ := step_worker h
      exact loaded.worker hw (workerStep_moved hstep)

variable {phase : Phase} {i : Nat}

theorem run_worker {as : List Event} {sh : Shared} (hw : s.workers[k]? = some w)
    (hstep : workerStep s.shared k w answer = some (w', sh))
    (hrest : run (step cfg) { s with workers := s.workers.set k w', shared := sh } as = some t) :
    run (step cfg) s (.worker k answer :: as) = some t := by
  refine run_cons.mpr ⟨_, ?_, hrest⟩
  simp [step, hw, hstep]

theorem run_open {as : List Event} (w w' : Worker) (hw : s.workers[k]? = some w)
    (hopens : w.pc.Opens)
    (hread : openConnection s.shared w answer = w')
    (hrest : run (step cfg) { s with workers := s.workers.set k w' } as = some t) :
    run (step cfg) s (.worker k answer :: as) = some t := by
  refine run_worker hw ?_ hrest
  rw [← hread]
  unfold workerStep
  cases hpc : w.pc <;> first | rfl | (rw [hpc] at hopens; exact hopens.elim)

theorem run_reads (cfg : Config) {server : ServerData} {request_url : Text}
    (hw : s.workers[k]? = some (.created phase i))
    (hslot : s.shared.thread i = ⟨i, true, server.domain_name, request_url, server.servinfo⟩) :
    ∃ as t w, run (step cfg) s as = some t ∧ w ∈ t.workers ∧
      w.servinfo = some server.servinfo ∧ w.domain_name = some server.domain_name ∧
      w.request_url = some request_url := by
  have hk := (List.getElem?_eq_some_iff.mp hw).1
  let socket : Worker := ⟨phase, i, i, .socket, none, none, none⟩
  let connect : Worker := { socket with pc := .connect }
  let withServer : Worker :=
    { socket with pc := .requestUrl, servinfo := some server.servinfo }
  let withUrl : Worker :=
    { withServer with pc := .domainName, request_url := some request_url }
  let w : Worker := { withUrl with pc := .send, domain_name := some server.domain_name }
  refine ⟨List.replicate 5 (.worker k 0), { s with workers := s.workers.set k w }, w, ?_,
    List.mem_set hk w, rfl, rfl, rfl⟩
  refine run_open (.created phase i) socket hw trivial
    (by simp [openConnection, Worker.created, hslot, socket]) ?_
  refine run_open socket connect (by simp [hk]) trivial rfl ?_
  refine run_open connect withServer (by simp [hk]) trivial
    (by simp [openConnection, hslot, connect, withServer, socket]) ?_
  refine run_open withServer withUrl (by simp [hk]) trivial
    (by simp [openConnection, hslot, withServer, withUrl, socket]) ?_
  refine run_open withUrl w (by simp [hk]) trivial
    (by simp [openConnection, hslot, withServer, withUrl, socket, w]) ?_
  simp [run]

/-- A worker that main creates may read its slot at once. -/
theorem run_create_reads (hmain : s.main = .copyServinfo phase i) (hi : i < cfg.thread_nums)
    (hfree : (s.shared.thread i).running = false) :
    ∃ as t w, run (step cfg) s as = some t ∧ w ∈ t.workers ∧
      w.servinfo = some cfg.nearest_server.servinfo ∧
      w.domain_name = some cfg.nearest_server.domain_name ∧
      w.request_url = some (requestUrl phase cfg.nearest_server.url) := by
  have hworker : (s.created cfg phase i).workers[s.workers.length]? =
      some (.created phase i) := by simp [State.created]
  have hslot : (s.created cfg phase i).shared.thread i = ⟨i, true,
      cfg.nearest_server.domain_name, requestUrl phase cfg.nearest_server.url,
      cfg.nearest_server.servinfo⟩ := by simp [State.created, Shared.setSlot]
  obtain ⟨as, t, w, ht, hw⟩ := run_reads cfg hworker hslot
  exact ⟨_, t, w, run_append.mpr ⟨_, run_create hmain hi hfree, ht⟩, hw⟩

/-- The first worker gets no socket, ends, and main comes to the upload phase with its
slot free again. -/
theorem run_to_upload (hpos : 0 < cfg.thread_nums) :
    ∃ as t, run (step cfg) start as = some t ∧ t.main = .copyServinfo .upload 0 ∧
      (t.shared.thread 0).running = false := by
  let s := shortTurn.created cfg .download 0
  let ended : State :=
    { s with
      workers := [⟨.download, 0, 0, .done, none, none, none⟩]
      shared := s.shared.setSlot 0 { s.shared.thread 0 with running := false } }
  have hcreate : run (step cfg) shortTurn (List.replicate 7 (.main false)) = some s :=
    run_create rfl hpos rfl
  have hends : run (step cfg) s
      [.worker 0 0, .worker 0 (-1), .worker 0 0, .worker 0 0] = some ended := rfl
  have hstart : ended.main = .copyServinfo .download 1 := rfl
  obtain ⟨as, t, ht, hmain, hslot, hstop, -⟩ := run_turn cfg hstart Nat.one_pos
  let entered : State :=
    { t with
      main := .testTime .upload
      shared := { t.shared with thread_all_stop := false } }
  have hchange : run (step cfg) t (List.replicate 4 (.main false)) = some entered :=
    run_change hmain (hstop.trans rfl)
  have hfirst : run (step cfg) entered [.main false] =
      some { entered with main := .copyServinfo .upload 0 } := rfl
  refine ⟨_, _, run_append.mpr ⟨_, run_shortTurn, run_append.mpr ⟨_, hcreate,
    run_append.mpr ⟨_, hends, run_append.mpr ⟨t, ht, run_append.mpr ⟨_, hchange, hfirst⟩⟩⟩⟩⟩,
    rfl, ?_⟩
  rw [show ({ entered with main := .copyServinfo .upload 0 } : State).shared.thread 0 =
    t.shared.thread 0 from rfl, hslot]
  simp [ended, Shared.setSlot]

/-- Some run gets a worker of each phase to the point where it sends its request. -/
theorem exists_reader (cfg : Config) (hpos : 0 < cfg.thread_nums) (phase : Phase) :
    ∃ as t w, run (step cfg) start as = some t ∧ w ∈ t.workers ∧
      w.servinfo = some cfg.nearest_server.servinfo ∧
      w.domain_name = some cfg.nearest_server.domain_name ∧
      w.request_url = some (requestUrl phase cfg.nearest_server.url) := by
  cases phase with
  | download =>
      have hmain : shortTurn.main = .copyServinfo .download 0 := rfl
      obtain ⟨as, t, w, ht, hw⟩ := run_create_reads hmain hpos rfl
      exact ⟨_, t, w, run_append.mpr ⟨_, run_shortTurn, ht⟩, hw⟩
  | upload =>
      obtain ⟨as, m, hm, hmain, hfree⟩ := run_to_upload hpos
      obtain ⟨bs, t, w, ht, hw⟩ := run_create_reads hmain hpos hfree
      exact ⟨_, t, w, run_append.mpr ⟨_, hm, ht⟩, hw⟩

theorem probeServers_domain_name (servers : Servers) (outcomes : Outcomes)
    (i : Fin nearestServersNum) :
    (probeServers servers outcomes i).domain_name = cutPort (probeHost (servers i).url) := by
  rw [← domainName_latencyUrl]
  rfl

theorem targets_of_slotOne {servers : Servers} {outcomes : Outcomes} {thread_nums : Nat}
    {b : Fin nearestServersNum} (hselected : Selected (measured outcomes) b)
    (loaded : Loaded (runProc servers outcomes thread_nums) s)
    (serves : SlotOneServes servers outcomes) (hw : w ∈ s.workers) :
    Targets w (probeServers servers outcomes b) := by
  obtain ⟨hservinfo, hdomain, hdirectory⟩ := serves.agrees b hselected
  refine ⟨fun a h => ?_, fun name h => ?_, fun url h => ?_⟩
  · exact (loaded.servinfo w hw a h).trans hservinfo
  · rw [loaded.domain_name w hw name h, probeServers_domain_name, ← hdomain]
    exact probeServers_domain_name servers outcomes 1
  · refine Eq.trans ?_ hdirectory
    cases loaded.request_url w hw url h with
    | inl hupload =>
        rw [hupload, requestUrl, uploadRequestUrl, hostAndPath_eq]
        rfl
    | inr hother =>
        obtain ⟨_, hdownload⟩ := hother
        rw [hdownload]
        exact (directory_download_iff _).mpr serves.plain

/-- `run_proc` announces the slot of lowest latency. All workers of all runs use that
server exactly if there is no worker at all or slot 1 serves as well. -/
theorem workers_use_best_server_iff (servers : Servers) (outcomes : Outcomes)
    (thread_nums : Nat) :
    ∃ b : Fin nearestServersNum, (getBestServer servers outcomes).2 = (b.val : Nat) ∧
      ((∀ as s, run (step (runProc servers outcomes thread_nums)) start as = some s →
          ∀ w ∈ s.workers, Targets w ((getBestServer servers outcomes).1 b)) ↔
        thread_nums = 0 ∨ SlotOneServes servers outcomes) := by
  obtain ⟨b, hb, hselected⟩ := getBestServer_selected servers outcomes
  refine ⟨b, hb, ?_⟩
  constructor
  · intro hall
    cases Nat.eq_zero_or_pos thread_nums with
    | inl hzero =>
        exact .inl hzero
    | inr hpos =>
        right
        obtain ⟨as, s, w, hs, hw, hservinfo, hdomain, hurl⟩ :=
          exists_reader (runProc servers outcomes thread_nums) hpos .download
        have hdown := hall as s hs w hw
        obtain ⟨as', s', w', hs', hw', _, _, hurl'⟩ :=
          exists_reader (runProc servers outcomes thread_nums) hpos .upload
        have hup := (hall as' s' hs' w' hw').directory _ hurl'
        have hdirectory := hdown.directory _ hurl
        have hpath : directory (path (servers 1).url) = directory (path (servers b).url) := by
          rw [requestUrl, uploadRequestUrl, hostAndPath_eq] at hup
          exact hup
        refine ⟨fun b' hb' => ?_, (directory_download_iff _).mp (hdirectory.trans hpath.symm)⟩
        rw [hb'.unique hselected, ← probeServers_domain_name servers outcomes,
          ← probeServers_domain_name servers outcomes]
        exact ⟨hdown.servinfo _ hservinfo, hdown.domain_name _ hdomain, hpath⟩
  · intro hcase as s hs w hw
    have hloaded := invariant_run (fun _ _ _ hs hstep => Loaded.step hs hstep)
      (Loaded.start (runProc servers outcomes thread_nums)) hs
    cases hcase with
    | inl hzero =>
        have hbelow : w.arg < thread_nums := hloaded.below w hw
        omega
    | inr serves =>
        exact targets_of_slotOne hselected hloaded serves hw

def exampleServers : Servers := fun i => { exampleServer with servinfo := ⟨i, 80⟩ }

def exampleOutcomes : Outcomes := fun i =>
  ⟨some ⟨i, 80⟩, some "test=test".toList, if i = 0 then 10 else 20⟩

theorem workers_use_second_server :
    (getBestServer exampleServers exampleOutcomes).2 = 0 ∧
      ∃ as s w, run (step (runProc exampleServers exampleOutcomes 1)) start as = some s ∧
        w ∈ s.workers ∧
        ¬ Targets w ((getBestServer exampleServers exampleOutcomes).1 0) := by
  refine ⟨by decide +kernel, ?_⟩
  obtain ⟨as, s, w, hs, hw, hservinfo, _⟩ :=
    exists_reader (runProc exampleServers exampleOutcomes 1) Nat.one_pos .download
  refine ⟨as, s, w, hs, hw, fun htargets => ?_⟩
  have haddress := htargets.servinfo _ hservinfo
  revert haddress
  decide +kernel

end LinuxTraining.Speedtest
