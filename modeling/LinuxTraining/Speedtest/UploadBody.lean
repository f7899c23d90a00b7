import LinuxTraining.Speedtest.PhaseChange

/-!
The body of the upload request. The header announces `UL_BUFFER_TIMES` blocks, and the bytes
that a worker sends of them are followed along the run.
-/
namespace LinuxTraining.Speedtest
open Execution Threads

def bodyLength : Nat := ulBufferTimes * ulBufferSize

def contentLength : Text :=
  "Content-Length: ".toList ++ Nat.toDigits 10 bodyLength ++ "\r\n\r\n".toList

/-- The bytes of the body that the next step of an upload worker sends. -/
def Worker.body (w : Worker) (answer : Int) : Nat :=
  match w.phase, w.pc with
  | .upload, .sendBlock j => if j < ulBufferTimes then answer.toNat else 0
  | _, _ => 0

def bodySent (k : Nat) (s : State) : Event → Nat
  | .main _ => 0
  | .worker j answer => if j = k then (s.workers[k]?.map fun w => w.body answer).getD 0 else 0

/-- The blocks that a worker has sent, as long as it is in the loop over them. -/
def Pc.blocks : Pc → Nat
  | .sendBlock j => j
  | .lock _ (.block j) | .load _ (.block j) | .store _ _ (.block j) | .unlock (.block j)
  | .testStop (.block j) => j + 1
  | _ => 0

def Pc.Sent (n : Nat) : Pc → Prop
  | .close | .clearRunning | .done => n ≤ bodyLength
  | .select | .recv _ => n = bodyLength
  | pc => n = pc.blocks * ulBufferSize ∧ pc.blocks ≤ ulBufferTimes

/-- Worker `k` does not exist yet, or stands where it must after `n` bytes. -/
def SentBy (k : Nat) (s : State) (n : Nat) : Prop :=
  match s.workers[k]? with
  | none => n = 0
  | some w => w.phase = .upload → w.pc.Sent n

variable {cfg : Config} {s t : State} {sh sh' : Shared} {k n : Nat} {w w' : Worker} {answer : Int}

theorem Pc.Sent.le {pc : Pc} (h : pc.Sent n) : n ≤ bodyLength := by
  have hblocks : n = pc.blocks * ulBufferSize ∧ pc.blocks ≤ ulBufferTimes → n ≤ bodyLength := by
    intro hsent
    obtain ⟨rfl, hle⟩ := hsent
    exact Nat.mul_le_mul_right _ hle
  cases pc with
  | close | clearRunning | done => exact h
  | select | recv ready => exact Nat.le_of_eq h
  | _ => exact hblocks h

/-- An answer of `send` for a block is a block, or less and the end. -/
theorem sendBlock_sent {j : Nat} (hphase : w.phase = .upload) (hpc : w.pc = .sendBlock j)
    (hsent : w.pc.Sent n) (h : uploadThread sh w answer = some (w', sh')) :
    w'.pc.Sent (n + w.body answer) := by
  rw [hpc] at hsent
  obtain ⟨rfl, hle⟩ := hsent
  simp only [Pc.blocks] at hle
  simp only [uploadThread, hpc] at h
  simp only [Worker.body, hphase, hpc, Pc.blocks]
  split at h
  · rename_i hj
    rw [if_pos hj]
    split at h
    · cases h
    · rename_i hfits
      split at h
      · rename_i hfull
        cases h
        refine ⟨?_, hj⟩
        simp only [hfull, Int.toNat_natCast, Pc.blocks, Worker.goto]
        rw [Nat.add_mul, Nat.one_mul]
      · cases h
        have hblock : answer.toNat ≤ ulBufferSize := by omega
        calc j * ulBufferSize + answer.toNat ≤ (j + 1) * ulBufferSize := by
              rw [Nat.add_mul, Nat.one_mul]
              exact Nat.add_le_add_left hblock _
          _ ≤ bodyLength := Nat.mul_le_mul_right _ hj
  · rename_i hj
    cases h
    have hall : j = ulBufferTimes := by omega
    rw [if_neg hj, hall]
    rfl

/-- No other step of an upload worker sends a part of the body. -/
theorem workerStep_keeps (hphase : w.phase = .upload) (hother : ∀ j, w.pc ≠ .sendBlock j)
    (hsent : w.pc.Sent n) (h : workerStep sh k w answer = some (w', sh')) : w'.pc.Sent n := by
  have hle := hsent.le
  unfold workerStep at h
  cases hpc : w.pc with
  | sendBlock j => exact absurd hpc (hother j)
  | start | requestUrl | domainName =>
      rw [hpc] at hsent
      simp only [hpc, openConnection] at h
      cases h
      exact hsent
  | socket | connect =>
      rw [hpc] at hsent
      simp only [hpc, openConnection] at h
      cases h
      by_cases hanswer : answer = -1
      · simp only [hanswer, if_true, Worker.goto]
        exact hle
      · simp only [hanswer, if_false, Worker.goto]
        exact hsent
  | send =>
      rw [hpc] at hsent
      simp only [hpc, hphase, uploadThread] at h
      split at h
      · cases h
      · split at h
        · cases h
          exact hsent
        · cases h
          exact hle
  | lock size after =>
      rw [hpc] at hsent
      simp only [hpc, addSize] at h
      split at h
      · cases h
        cases after <;> exact hsent
      · cases h
  | load size after | store size total after =>
      rw [hpc] at hsent
      simp only [hpc, addSize] at h
      cases h
      cases after <;> exact hsent
  | unlock after =>
      rw [hpc] at hsent
      simp only [hpc, addSize] at h
      cases after with
      | header | receive | block j =>
          cases h
          exact hsent
  | testStop after =>
      rw [hpc] at hsent
      simp only [hpc, hphase, uploadThread] at h
      split at h
      · cases h
        exact hle
      · cases after with
        | block j =>
            cases h
            exact hsent
        | header | receive => cases h
  | select =>
      rw [hpc] at hsent
      simp only [hpc, hphase, uploadThread] at h
      cases h
      exact hsent
  | recv ready =>
      rw [hpc] at hsent
      simp only [hpc, hphase, uploadThread] at h
      split at h
      · cases h
      · split at h
        · cases h
          exact hle
        · cases h
          exact hsent
  | close | clearRunning =>
      simp only [hpc, finish] at h
      cases h
      exact hle
  | done => simp [hpc, finish] at h

theorem workerStep_sent (hphase : w.phase = .upload) (hsent : w.pc.Sent n)
    (h : workerStep sh k w answer = some (w', sh')) : w'.pc.Sent (n + w.body answer) := by
  by_cases hblock : ∃ j, w.pc = .sendBlock j
  · obtain ⟨j, hpc⟩ := hblock
    simp only [workerStep, hpc, hphase] at h
    exact sendBlock_sent hphase hpc hsent h
  · have hother : ∀ j, w.pc ≠ .sendBlock j := fun j hpc => hblock ⟨j, hpc⟩
    have hnothing : w.body answer = 0 := by
      unfold Worker.body
      split
      · rename_i j _ hpc
        exact absurd hpc (hother j)
      · rfl
    rw [hnothing]
    exact workerStep_keeps hphase hother hsent h

theorem SentBy.worker {j : Nat} (sent : SentBy k s n) (hw : s.workers[j]? = some w)
    (hstep : workerStep s.shared j w answer = some (w', sh')) :
    SentBy k { s with workers := s.workers.set j w', shared := sh' }
      (n + bodySent k s (.worker j answer)) := by
  have hj := (List.getElem?_eq_some_iff.mp hw).1
  by_cases hjk : j = k
  · subst hjk
    simp only [SentBy, hw] at sent
    simp only [SentBy, bodySent, hw, List.getElem?_set_self hj, if_true, Option.map_some,
      Option.getD_some]
    intro hphase
    have hsame : w.phase = .upload := (workerStep_moved hstep).frame.1.symm.trans hphase
    exact workerStep_sent hsame (sent hsame) hstep
  · simpa only [SentBy, bodySent, hjk, if_false, Nat.add_zero, List.getElem?_set_ne hjk] using sent

theorem SentBy.main {elapsed : Bool} (sent : SentBy k s n) (h : MainMoved cfg s elapsed t) :
    SentBy k t n := by
  cases h.frame.2.2.2 with
  | inl hsame =>
      unfold SentBy
      rw [hsame]
      exact sent
  | inr hadded =>
      obtain ⟨phase, i, _, hworkers⟩ := hadded
      unfold SentBy at sent ⊢
      rw [hworkers]
      cases Nat.lt_trichotomy k s.workers.length with
      | inl hold =>
          rw [List.getElem?_append_left hold]
          exact sent
      | inr hnew =>
          have hnone : s.workers[k]? = none := List.getElem?_eq_none (by omega)
          simp only [hnone] at sent
          cases hnew with
          | inl hlast =>
              subst hlast
              rw [List.getElem?_concat_length]
              exact fun _ => ⟨by simp [sent, Worker.created, Pc.blocks], Nat.zero_le _⟩
          | inr hbeyond =>
              rw [List.getElem?_eq_none (by simp; omega)]
              exact sent

theorem SentBy.step {e : Event} (sent : SentBy k s n) (h : step cfg s e = some t) :
    SentBy k t (n + bodySent k s e) := by
  cases e with
  | main elapsed => exact sent.main (mainStep_moved h)
  | worker j answer =>
      obtain ⟨w, w', sh', hw, hstep, rfl⟩ := step_worker h
      exact sent.worker hw hstep

/-- The number in the header is the length of the body. -/
theorem postRequest_announces (request_url domain_name : Text) :
    contentLength <:+ postRequest request_url domain_name := by
  have hend : "\r\nContent-Length: 83886080\r\n\r\n".toList = "\r\n".toList ++ contentLength := by
    decide +kernel
  unfold postRequest
  simp only [hend]
  exact (List.suffix_append _ _).trans (List.suffix_append _ _)

/-- An upload worker never sends more of the body than its header announces, and when it goes
on to the answer of the server it has sent all of it. -/
theorem upload_body_announced (cfg : Config) (as : List Event) (s : State)
    (h : run (step cfg) start as = some s) (k : Nat) (w : Worker)
    (hw : s.workers[k]? = some w) (hupload : w.phase = .upload) :
    contentLength <:+ w.request ∧
      tally (step cfg) (bodySent k) start as ≤ bodyLength ∧
      ((w.pc = .select ∨ ∃ ready, w.pc = .recv ready) →
        tally (step cfg) (bodySent k) start as = bodyLength) := by
  have hstart : SentBy k start 0 := by simp [SentBy, start]
  have hsent := invariant_tally (fun _ _ _ _ hs hstep => SentBy.step hs hstep) hstart h
  rw [Nat.zero_add] at hsent
  simp only [SentBy, hw] at hsent
  have hpc := hsent hupload
  have hrequest : contentLength <:+ w.request := by
    simp only [Worker.request, hupload]
    exact postRequest_announces _ _
  refine ⟨hrequest, hpc.le, fun hwaits => ?_⟩
  obtain hselect | ⟨ready, hrecv⟩ := hwaits
  · rw [hselect] at hpc
    exact hpc
  · rw [hrecv] at hpc
    exact hpc

def firstBlock : List Event :=
  shortDownload ++ [.worker 0 0, .worker 0 (-1), .worker 0 0, .worker 0 0] ++ toUpload ++
    List.replicate 8 (.main false) ++
    [.worker 1 0, .worker 1 3, .worker 1 0, .worker 1 0, .worker 1 0, .worker 1 133,
      .worker 1 0, .worker 1 0, .worker 1 0, .worker 1 0, .worker 1 ulBufferSize]

theorem upload_body_announced_block :
    ∃ s w, run (step oneThread) start firstBlock = some s ∧ s.workers[1]? = some w ∧
      contentLength <:+ w.request ∧
      tally (step oneThread) (bodySent 1) start firstBlock ≤ bodyLength := by
  have hends : (run (step oneThread) start firstBlock).map
      (fun s => s.workers[1]?.map fun w => w.phase) = some (some .upload) := by decide +kernel
  obtain ⟨s, hs, hphase⟩ := Option.map_eq_some_iff.mp hends
  obtain ⟨w, hw, hupload⟩ := Option.map_eq_some_iff.mp hphase
  obtain ⟨hrequest, hle, _⟩ := upload_body_announced oneThread firstBlock s hs 1 w hw hupload
  exact ⟨s, w, hs, hw, hrequest, hle⟩

/-- A worker stands before a block that it sends without another look at the flag. -/
def Pc.BeforeBlock : Pc → Bool
  | .start | .socket | .connect | .requestUrl | .domainName | .send | .sendBlock _ => true
  | .lock _ .header | .load _ .header | .store _ _ .header | .unlock .header => true
  | _ => false

def Worker.blockLeft (w : Worker) : Nat :=
  if w.phase = .upload ∧ w.pc.BeforeBlock = true then ulBufferSize else 0

def blockLeft (k : Nat) (s : State) : Nat :=
  match s.workers[k]? with
  | none => ulBufferSize
  | some w => w.blockLeft

theorem workerStep_blockLeft (hphase : w.phase = .upload) (hstop : sh.thread_all_stop = true)
    (h : workerStep sh k w answer = some (w', sh')) :
    (w.body answer = 0 ∧ (w'.pc.BeforeBlock = true → w.pc.BeforeBlock = true)) ∨
      (w.body answer ≤ ulBufferSize ∧ w.pc.BeforeBlock = true ∧ w'.pc.BeforeBlock = false) := by
  unfold workerStep at h
  cases hpc : w.pc with
  | sendBlock j =>
      right
      simp only [hpc, hphase, uploadThread] at h
      simp only [Worker.body, hphase, hpc]
      split at h
      · rename_i hj
        rw [if_pos hj]
        split at h
        · cases h
        · rename_i hfits
          have hblock : answer.toNat ≤ ulBufferSize := by omega
          split at h
          · cases h
            exact ⟨hblock, rfl, rfl⟩
          · cases h
            exact ⟨hblock, rfl, rfl⟩
      · rename_i hj
        cases h
        rw [if_neg hj]
        exact ⟨Nat.zero_le _, rfl, rfl⟩
  | start | socket | connect | requestUrl | domainName | send =>
      exact .inl ⟨by simp [Worker.body, hpc], fun _ => rfl⟩
  | lock size after =>
      left
      simp only [hpc, addSize] at h
      split at h
      · cases h
        exact ⟨by simp [Worker.body, hpc], by cases after <;> exact id⟩
      · cases h
  | load size after | store size total after =>
      left
      simp only [hpc, addSize] at h
      cases h
      exact ⟨by simp [Worker.body, hpc], by cases after <;> exact id⟩
  | unlock after =>
      left
      simp only [hpc, addSize] at h
      cases after with
      | header | receive | block j =>
          cases h
          exact ⟨by simp [Worker.body, hpc], id⟩
  | testStop after =>
      left
      simp only [hpc, hphase, uploadThread, hstop, if_true] at h
      cases h
      exact ⟨by simp [Worker.body, hpc], id⟩
  | select =>
      left
      simp only [hpc, hphase, uploadThread] at h
      cases h
      exact ⟨by simp [Worker.body, hpc], id⟩
  | recv ready =>
      left
      simp only [hpc, hphase, uploadThread] at h
      split at h
      · cases h
      · split at h <;> cases h <;> exact ⟨by simp [Worker.body, hpc], id⟩
  | close | clearRunning =>
      left
      simp only [hpc, finish] at h
      cases h
      exact ⟨by simp [Worker.body, hpc], id⟩
  | done => simp [hpc, finish] at h

/-- The flag is set and the upload phase is the last, so nothing resets it. -/
def Stopping (s : State) : Prop := InUpload s ∧ s.shared.thread_all_stop = true

/-- Only main writes the flag. -/
theorem Moved.stop (h : Moved sh k w answer w' sh') :
    sh'.thread_all_stop = sh.thread_all_stop := by
  cases h <;> rfl

theorem Stopping.main {elapsed : Bool} (stopping : Stopping s) (h : MainMoved cfg s elapsed t) :
    Stopping t := by
  refine ⟨h.inUpload stopping.1, ?_⟩
  have hup := stopping.1
  unfold InUpload at hup
  cases h with
  | testTime phase at_ => cases elapsed <;> simp [stopping.2]
  | resetStop at_ =>
      rw [at_] at hup
      cases hup
  | _ => exact stopping.2

theorem Stopping.step {e : Event} (stopping : Stopping s)
    (h : Speedtest.step cfg s e = some t) :
    Stopping t := by
  cases e with
  | main elapsed => exact stopping.main (mainStep_moved h)
  | worker j answer =>
      obtain ⟨w, w', sh', hw, hstep, rfl⟩ := step_worker h
      exact ⟨stopping.1, (workerStep_moved hstep).stop.trans stopping.2⟩

theorem Worker.blockLeft_le (w : Worker) : w.blockLeft ≤ ulBufferSize := by
  unfold Worker.blockLeft
  split
  · exact Nat.le_refl _
  · exact Nat.zero_le _

theorem Worker.pays (hstop : sh.thread_all_stop = true)
    (h : workerStep sh k w answer = some (w', sh')) :
    w.body answer + w'.blockLeft ≤ w.blockLeft := by
  have hphase' := (workerStep_moved h).frame.1
  cases hphase : w.phase with
  | download => simp [Worker.body, Worker.blockLeft, hphase, hphase']
  | upload =>
      rw [hphase] at hphase'
      unfold Worker.blockLeft
      simp only [hphase, hphase', true_and]
      cases workerStep_blockLeft hphase hstop h with
      | inl hnothing =>
          obtain ⟨hbody, hbefore⟩ := hnothing
          by_cases hnext : w'.pc.BeforeBlock = true
          · simp [hbody, hnext, hbefore hnext]
          · simp [hbody, hnext]
      | inr hblock =>
          obtain ⟨hbody, hbefore, hafter⟩ := hblock
          simpa [hbefore, hafter] using hbody

/-- What worker `k` sends comes off what it can still send. -/
theorem Stopping.pays {e : Event} (stopping : Stopping s)
    (h : Speedtest.step cfg s e = some t) (k : Nat) :
    bodySent k s e + blockLeft k t ≤ blockLeft k s := by
  cases e with
  | main elapsed =>
      simp only [bodySent, Nat.zero_add, blockLeft]
      cases (mainStep_moved h).frame.2.2.2 with
      | inl hsame => rw [hsame]
      | inr hadded =>
          obtain ⟨phase, i, _, hworkers⟩ := hadded
          rw [hworkers]
          by_cases hold : k < s.workers.length
          · rw [List.getElem?_append_left hold]
          · rw [List.getElem?_eq_none (Nat.le_of_not_lt hold)]
            cases (s.workers ++ [Worker.created phase i])[k]? with
            | none => exact Nat.le_refl _
            | some w => exact w.blockLeft_le
  | worker j answer =>
      obtain ⟨w, w', sh', hw, hstep, rfl⟩ := step_worker h
      have hj := (List.getElem?_eq_some_iff.mp hw).1
      by_cases hjk : j = k
      · subst hjk
        simpa only [bodySent, blockLeft, hw, List.getElem?_set_self hj, if_true, Option.map_some,
          Option.getD_some] using Worker.pays stopping.2 hstep
      · simp only [bodySent, blockLeft, hjk, if_false, List.getElem?_set_ne hjk, Nat.zero_add,
          Nat.le_refl]

/-- Once the flag is set in the upload phase, no worker sends more than one block of its body,
be it at work already or created later. -/
theorem one_block_after_stop (cfg : Config) (as : List Event) (s t : State) (k : Nat)
    (hup : InUpload s) (hstop : s.shared.thread_all_stop = true)
    (h : run (step cfg) s as = some t) :
    tally (step cfg) (bodySent k) s as ≤ ulBufferSize := by
  have hpays : tally (step cfg) (bodySent k) s as + blockLeft k t ≤ blockLeft k s := tally_le
    (fun _ _ _ hs _ hstep => Stopping.step hs hstep)
    (fun _ _ _ hs _ hstep => Stopping.pays hs hstep k)
    (show Stopping s from ⟨hup, hstop⟩) (along_true s as) h
  have hle : blockLeft k s ≤ ulBufferSize := by
    unfold blockLeft
    cases s.workers[k]? with
    | none => exact Nat.le_refl _
    | some w => exact w.blockLeft_le
  omega

def lateWorker : List Event :=
  shortDownload ++ [.worker 0 0, .worker 0 (-1), .worker 0 0, .worker 0 0] ++ toUpload ++
    .main true :: List.replicate 7 (.main false)

def lastBlock : List Event :=
  [.worker 1 0, .worker 1 3, .worker 1 0, .worker 1 0, .worker 1 0, .worker 1 133,
    .worker 1 0, .worker 1 0, .worker 1 0, .worker 1 0, .worker 1 ulBufferSize,
    .worker 1 0, .worker 1 0, .worker 1 0, .worker 1 0, .worker 1 0, .worker 1 0, .worker 1 0]

theorem one_block_after_stop_late :
    ∃ s t, run (step oneThread) start lateWorker = some s ∧
      run (step oneThread) s lastBlock = some t ∧
      tally (step oneThread) (bodySent 1) s lastBlock ≤ ulBufferSize := by
  have hall : (run (step oneThread) start (lateWorker ++ lastBlock)).isSome = true := by
    decide +kernel
  have hstops : (run (step oneThread) start lateWorker).map
      (fun s => (s.main, s.shared.thread_all_stop)) = some (.copyServinfo .upload 1, true) := by
    decide +kernel
  obtain ⟨t, ht⟩ := Option.isSome_iff_exists.mp hall
  obtain ⟨s, hs, ht⟩ := run_append.mp ht
  obtain ⟨m, hm, hends⟩ := Option.map_eq_some_iff.mp hstops
  rw [hs] at hm
  cases hm
  simp only [Prod.mk.injEq] at hends
  obtain ⟨hmain, hstop⟩ := hends
  have hup : InUpload s := by
    rw [InUpload, hmain]
    rfl
  exact ⟨s, t, hs, ht, one_block_after_stop oneThread lastBlock s t 1 hup hstop ht⟩

end LinuxTraining.Speedtest
