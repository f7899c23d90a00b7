import LinuxTraining.MutexSync.StoredOnce

/-!
The readers come to an end, each with the whole file behind it, and what one of them stores it
stores in the order of the file.
-/
namespace LinuxTraining.MutexSync
open Execution Stdio Threads

def filePieces (text : List Char) : List (List Char) := pieces (maxFile - 1) text

def Reader.left (text : List Char) (r : Reader) : Nat :=
  match r.pc with
  | .fopen => (filePieces text).length * 8 + 3
  | .fgets => (filePieces r.fp).length * 8 + 2
  | .lock => (filePieces r.fp).length * 8 + 9
  | .test => (filePieces r.fp).length * 8 + 8
  | .draw => (filePieces r.fp).length * 8 + 7
  | .printf => (filePieces r.fp).length * 8 + 6
  | .store => (filePieces r.fp).length * 8 + 5
  | .increment => (filePieces r.fp).length * 8 + 4
  | .unlock => (filePieces r.fp).length * 8 + 3
  | .fclose => 1
  | .done => 0

def State.left (text : List Char) (s : State) : Nat := (s.readers.map (Reader.left text)).sum

/-- Every reader has returned, after it took the file from the first piece to the last. -/
def State.Finished (text : List Char) (s : State) : Prop :=
  ∀ r ∈ s.readers, r.pc = .done ∧ r.taken = filePieces text

def Pc.beforeStore : Pc → Bool
  | .lock | .test | .draw | .printf | .store => true
  | _ => false

def Shared.linesOf (sh : Shared) (k : Nat) : List (List Char) :=
  (sh.stored.filter fun store => store.reader = k).map Store.line

def Reader.settled (r : Reader) : List (List Char) :=
  if r.pc.beforeStore then r.taken.dropLast else r.taken

def Held (s : State) : Prop :=
  ∀ k, s.shared.mutex = some k → ∃ r, s.readers[k]? = some r ∧ r.pc.locked = true

structure InOrder (s : State) : Prop where
  last : ∀ r ∈ s.readers, r.pc.beforeStore = true → r.taken.getLast? = some r.buffer
  stored : ∀ k r, s.readers[k]? = some r → (s.shared.linesOf k).Sublist r.settled
  ended : ∀ r ∈ s.readers, r.pc = .fclose ∨ r.pc = .done → r.fp = []

variable {text : List Char} {sh sh' : Shared} {s t : State} {k rand : Nat} {r r' : Reader}

theorem Moved.left (h : Moved text sh k r r' sh') : r'.left text < r.left text := by
  cases h with
  | opens at_ =>
      simp only [Reader.left, at_]
      omega
  | reads at_ more =>
      have hroom : 0 < maxFile - 1 := by decide
      have hpieces := congrArg List.length (pieces_cons hroom more)
      rw [List.length_cons] at hpieces
      simp only [Reader.left, Reader.read, at_, filePieces]
      omega
  | ends at_ rest_nil =>
      simp only [Reader.left, Reader.goto, at_]
      omega
  | leaves at_ =>
      cases at_ with
      | inl at_ | inr at_ =>
          simp only [Reader.left, Reader.goto, at_]
          omega
  | locks at_ | tests at_ | draws at_ | prints at_ | stores at_ | increments at_ | unlocks at_
  | closes at_ =>
      simp only [Reader.left, Reader.goto, at_]
      omega

theorem State.left_step {e : Turn} (h : step text s e = some t) :
    t.left text < s.left text := by
  obtain ⟨r, r', sh, hr, hmoved, rfl⟩ := step_moved h
  have hsum := sum_moved (Reader.left text) hr r'
  have hless := hmoved.left
  simp only [State.left]
  omega

theorem Held.moved (held : Held s) (hr : s.readers[k]? = some r)
    (h : Moved text s.shared k r r' sh') : Held ⟨s.readers.set k r', sh'⟩ := by
  -- a reader that moves keeps the lock exactly if it held it and stays inside
  have hkeep : sh'.mutex = s.shared.mutex → (r.pc.locked = true → r'.pc.locked = true) →
      Held ⟨s.readers.set k r', sh'⟩ := by
    intro hsame hstays j hj
    rw [hsame] at hj
    obtain ⟨v, hv, hvlocked⟩ := held j hj
    by_cases hjk : j = k
    · rw [hjk, hr] at hv
      cases hv
      exact ⟨r', (getElem?_set_iff hr).mpr (.inl ⟨hjk, rfl⟩), hstays hvlocked⟩
    · exact ⟨v, (getElem?_set_iff hr).mpr (.inr ⟨hjk, hv⟩), hvlocked⟩
  cases h with
  | locks at_ free =>
      intro j hj
      cases hj
      exact ⟨_, (getElem?_set_iff hr).mpr (.inl ⟨rfl, rfl⟩), rfl⟩
  | unlocks at_ =>
      intro j hj
      cases hj
  | opens at_ | reads at_ | ends at_ | closes at_ =>
      exact hkeep rfl fun hlocked => by simp [at_, Pc.locked] at hlocked
  | leaves at_ | tests at_ | draws at_ | prints at_ | stores at_ | increments at_ =>
      exact hkeep rfl fun _ => rfl

theorem linesOf_store (sh : Shared) (k j : Nat) (r : Reader) :
    (sh.store k r).linesOf j = sh.linesOf j ++ if k = j then [r.buffer] else [] := by
  by_cases hkj : k = j
  · simp [Shared.linesOf, Shared.store, List.filter_append, hkj]
  · simp [Shared.linesOf, Shared.store, List.filter_append, hkj]

theorem settled_before (h : r.pc.beforeStore = true) : r.settled = r.taken.dropLast := if_pos h

theorem settled_after (h : r.pc.beforeStore = false) : r.settled = r.taken :=
  if_neg (by rw [h]; exact Bool.false_ne_true)

/-- A reader stores what it took last, and takes lines only when it has none to store. -/
theorem Moved.settled (h : Moved text sh k r r' sh')
    (hlast : r.pc.beforeStore = true → r.taken.getLast? = some r.buffer)
    (hbefore : (sh.linesOf k).Sublist r.settled) : (sh'.linesOf k).Sublist r'.settled := by
  cases h with
  | stores at_ =>
      have hwas : r.pc.beforeStore = true := by rw [at_]; rfl
      have htaken := List.dropLast_append_getLast? r.buffer (hlast hwas)
      rw [settled_before hwas] at hbefore
      rw [linesOf_store, if_pos rfl, settled_after rfl,
        show (r.goto .increment).taken = r.taken from rfl, ← htaken]
      exact hbefore.append (List.Sublist.refl _)
  | reads at_ more =>
      rw [settled_after (by rw [at_]; rfl)] at hbefore
      rw [settled_before rfl, Reader.read, List.dropLast_concat]
      exact hbefore
  | leaves at_ =>
      have hwas : r.pc.beforeStore = true := by
        cases at_ with
        | inl at_ | inr at_ => rw [at_]; rfl
      rw [settled_before hwas] at hbefore
      rw [settled_after rfl]
      exact hbefore.trans (List.dropLast_sublist _)
  | opens at_ | ends at_ | locks at_ | tests at_ | draws at_ | prints at_ | increments at_
  | unlocks at_ | closes at_ =>
      rw [Reader.settled, at_] at hbefore
      exact hbefore

theorem Moved.linesOf_other (h : Moved text sh k r r' sh') {j : Nat} (hne : j ≠ k) :
    sh'.linesOf j = sh.linesOf j := by
  cases h with
  | stores at_ => rw [linesOf_store, if_neg (Ne.symm hne), List.append_nil]
  | _ => rfl

theorem Moved.last (h : Moved text sh k r r' sh')
    (hlast : r.pc.beforeStore = true → r.taken.getLast? = some r.buffer)
    (hafter : r'.pc.beforeStore = true) : r'.taken.getLast? = some r'.buffer := by
  cases h with
  | reads at_ more => exact List.getLast?_concat
  | opens | ends | leaves | stores | increments | unlocks | closes => cases hafter
  | locks at_ | tests at_ | draws at_ | prints at_ => exact hlast (by rw [at_]; rfl)

theorem Moved.ended (h : Moved text sh k r r' sh')
    (hended : r.pc = .fclose ∨ r.pc = .done → r.fp = [])
    (hafter : r'.pc = .fclose ∨ r'.pc = .done) : r'.fp = [] := by
  cases h with
  | ends at_ rest_nil => exact rest_nil
  | closes at_ => exact hended (.inl at_)
  | opens | reads | locks | tests | leaves | draws | prints | stores | increments | unlocks =>
      simp [Reader.goto, Reader.read] at hafter

theorem InOrder.moved (ordered : InOrder s) (hr : s.readers[k]? = some r)
    (h : Moved text s.shared k r r' sh') : InOrder ⟨s.readers.set k r', sh'⟩ := by
  have hmem := List.mem_of_getElem? hr
  refine ⟨forall_moved ordered.last (h.last (ordered.last r hmem)), fun j v hv => ?_,
    forall_moved ordered.ended (h.ended (ordered.ended r hmem))⟩
  cases (getElem?_set_iff hr).mp hv with
  | inl hmoved =>
      obtain ⟨rfl, rfl⟩ := hmoved
      exact h.settled (ordered.last r hmem) (ordered.stored j r hr)
  | inr hother =>
      obtain ⟨hne, hj⟩ := hother
      rw [h.linesOf_other hne]
      exact ordered.stored j v hj

structure Reading (text : List Char) (s : State) : Prop where
  guarded : Guarded text s
  held : Held s
  ordered : InOrder s

theorem Reading.start (thread_ids : List Int) : Reading text (start thread_ids) := by
  refine ⟨Guarded.start thread_ids, fun k hk => (by cases hk), ?_, ?_, ?_⟩
  · intro r hr hbefore
    obtain ⟨id, -, rfl⟩ := List.mem_map.mp hr
    cases hbefore
  · intro k r _
    exact List.nil_sublist _
  · intro r hr hafter
    obtain ⟨id, -, rfl⟩ := List.mem_map.mp hr
    rfl

theorem Reading.step {e : Turn} (reading : Reading text s) (h : step text s e = some t) :
    Reading text t := by
  have hguarded := reading.guarded.step h
  obtain ⟨r, r', sh, hr, hmoved, rfl⟩ := step_moved h
  exact ⟨hguarded, reading.held.moved hr hmoved,
    reading.ordered.moved hr hmoved⟩

theorem Reading.finished (reading : Reading text s) (hr : r ∈ s.readers) (hdone : r.pc = .done) :
    r.taken = filePieces text := by
  have hopened := reading.guarded.taken.opened r hr
  rw [if_neg (by rw [hdone]; exact Pc.noConfusion),
    reading.ordered.ended r hr (.inr hdone), pieces_nil, List.append_nil] at hopened
  exact hopened.symm

/-- A reader that does not wait for the lock can go on. -/
theorem exists_step (hr : s.readers[k]? = some r) (hgoes : r.pc ≠ .done)
    (hfree : r.pc = .lock → s.shared.mutex = none) : ∃ e t, step text s e = some t := by
  have hsome : (readFile text s.shared k r 0).isSome := by
    unfold readFile
    cases hpc : r.pc with
    | lock => simp [hfree hpc]
    | fgets | test | draw =>
        simp only
        split <;> rfl
    | done => exact absurd hpc hgoes
    | fopen | printf | store | increment | unlock | fclose => rfl
  obtain ⟨next, hread⟩ := Option.isSome_iff_exists.mp hsome
  refine ⟨⟨k, 0⟩, ⟨s.readers.set k next.1, next.2⟩, ?_⟩
  simp only [step, hr, hread, Option.map_some]

/-- A reader that waits for the lock waits for one that holds it. -/
theorem Reading.progress (reading : Reading text s) :
    s.Finished text ∨ ∃ e t, MutexSync.step text s e = some t := by
  by_cases hdone : ∀ r ∈ s.readers, r.pc = .done
  · exact .inl fun r hr => ⟨hdone r hr, reading.finished hr (hdone r hr)⟩
  · push Not at hdone
    obtain ⟨r, hr, hgoes⟩ := hdone
    obtain ⟨k, hk⟩ := List.mem_iff_getElem?.mp hr
    refine .inr ?_
    cases hmutex : s.shared.mutex with
    | none => exact exists_step hk hgoes fun _ => hmutex
    | some j =>
        obtain ⟨v, hv, hlocked⟩ := reading.held j hmutex
        refine exists_step hv (fun hpc => ?_) fun hpc => ?_
        · rw [hpc] at hlocked
          cases hlocked
        · rw [hpc] at hlocked
          cases hlocked

/-- However the readers take turns and whatever they draw, they all return with the whole file
behind them; and at every time what a reader has stored are lines of the file in its order, no
line of it twice. -/
theorem readers_finish (text : List Char) (thread_ids : List Int) :
    RunsTo (step text) (State.Finished text) (start thread_ids) ∧
      ∀ as s, run (step text) (start thread_ids) as = some s →
        ∀ k, ((s.shared.linesOf k).Sublist (filePieces text)) := by
  have hstep : ∀ (s : State) (e : Turn) (t : State), Reading text s → step text s e = some t →
      Reading text t := fun s e t reading h => reading.step h
  refine ⟨runsTo_of_measure (μ := State.left text) hstep (fun s e t _ h => State.left_step h)
    (fun s reading => reading.progress) (Reading.start thread_ids), fun as s h k => ?_⟩
  have reading := invariant_run hstep (Reading.start thread_ids) h
  cases hk : s.readers[k]? with
  | none =>
      -- nobody has stored under that number
      have hnone : s.shared.linesOf k = [] := by
        rw [Shared.linesOf, List.map_eq_nil_iff, List.filter_eq_nil_iff]
        intro store hstore heq
        obtain ⟨r, hr, -⟩ := reading.guarded.taken.stored store hstore
        rw [of_decide_eq_true heq, hk] at hr
        cases hr
      rw [hnone]
      exact List.nil_sublist _
  | some r =>
      have hsettled : r.settled.Sublist r.taken := by
        unfold Reader.settled
        split
        · exact List.dropLast_sublist _
        · exact List.Sublist.refl _
      have htaken := reading.guarded.taken.prefix (List.mem_of_getElem? hk)
      exact ((reading.ordered.stored k r hk).trans hsettled).trans htaken.sublist

end LinuxTraining.MutexSync
