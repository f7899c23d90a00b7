import LinuxTraining.MutexSync.ReadFile
import Mathlib.Data.List.Nodup

/-!
The readers store the numbers one after the other: the lock keeps the test of `count`, the
store and the increment of two readers apart, so no index is stored at twice and none is
stored at beyond the end of the array.
-/
namespace LinuxTraining.MutexSync
open Execution Stdio Threads

/-- Only the holder of the lock is past it, and `count` stands still between its test and
its increment. -/
structure Locked (s : State) : Prop where
  mutex : ∀ (k : Nat) (r : Reader), s.readers[k]? = some r → r.pc.locked = true →
    s.shared.mutex = some k
  room : ∀ r ∈ s.readers, r.pc.hasRoom = true → s.shared.count < maxSize
  bound : s.shared.count ≤ maxSize

def Reader.atIncrement (r : Reader) : Bool := r.pc = .increment

/-- The indices are stored at in order, and `count` is one behind while a reader is between
its store and its increment. -/
structure Recorded (s : State) : Prop where
  indices : s.shared.stored.map Store.index = List.range s.shared.stored.length
  length : s.shared.stored.length = s.shared.count + s.readers.countP Reader.atIncrement
  data : ∀ store ∈ s.shared.stored, s.shared.data store.index = atoi store.line

/-- Each reader has taken the file line by line, and the lines that are stored were taken by
the reader that stored them. -/
structure Taken (text : List Char) (s : State) : Prop where
  opened : ∀ r ∈ s.readers, if r.pc = .fopen then r.taken = []
    else pieces (maxFile - 1) text = r.taken ++ pieces (maxFile - 1) r.fp
  line : ∀ r ∈ s.readers, r.pc.hasLine = true → r.buffer ∈ r.taken
  stored : ∀ store ∈ s.shared.stored, ∃ r, s.readers[store.reader]? = some r ∧
    store.line ∈ r.taken

/-- No index beyond the end, and each index below `count` was stored at once, with the number
of a line that the storing reader got from the file. -/
structure StoredOnce (text : List Char) (s : State) : Prop where
  bound : s.shared.count ≤ maxSize
  once : ∀ i < s.shared.count, s.shared.stored.countP (fun store => store.index = i) = 1
  value : ∀ i < s.shared.count, ∀ store ∈ s.shared.stored, store.index = i →
    s.shared.data i = atoi store.line ∧
      ∃ r, s.readers[store.reader]? = some r ∧ store.line ∈ r.taken ∧
        r.taken <+: pieces (maxFile - 1) text

variable {text : List Char} {sh sh' : Shared} {s t : State} {k : Nat} {r r' : Reader}

/-- A reader loses no line that it has taken. -/
theorem Moved.taken (h : Moved text sh k r r' sh') : r.taken <+: r'.taken := by
  cases h with
  | reads at_ more => exact List.prefix_append _ _
  | _ => exact List.prefix_rfl

theorem Locked.start (thread_ids : List Int) : Locked (start thread_ids) where
  mutex := by
    intro k r hr hlocked
    obtain ⟨id, -, rfl⟩ := List.mem_map.mp (List.mem_of_getElem? hr)
    cases hlocked
  room := by
    intro r hr hroom
    obtain ⟨id, -, rfl⟩ := List.mem_map.mp hr
    cases hroom
  bound := Nat.zero_le _

theorem Locked.alone (locked : Locked s) {j : Nat} {v : Reader} (hr : s.readers[k]? = some r)
    (hv : s.readers[j]? = some v) (hrlocked : r.pc.locked = true) (hvlocked : v.pc.locked = true) :
    j = k := by
  have hk := locked.mutex k r hr hrlocked
  rw [locked.mutex j v hv hvlocked] at hk
  exact Option.some.inj hk

theorem locked_of_hasRoom {pc : Pc} (h : pc.hasRoom = true) : pc.locked = true := by
  cases pc <;> first | rfl | cases h

theorem Locked.mutex_moved (locked : Locked s) (hr : s.readers[k]? = some r)
    (h : Moved text s.shared k r r' sh') (j : Nat) (v : Reader)
    (hv : (s.readers.set k r')[j]? = some v) (hlocked : v.pc.locked = true) :
    sh'.mutex = some j := by
  cases (getElem?_set_iff hr).mp hv with
  | inl hmoved =>
      obtain ⟨rfl, rfl⟩ := hmoved
      have hbefore := locked.mutex j r hr
      cases h with
      | opens | reads | ends | unlocks | closes => cases hlocked
      | locks => rfl
      | leaves at_ => exact hbefore (by cases at_ with | _ at_ => rw [at_]; rfl)
      | tests at_ | draws at_ | prints at_ | stores at_ | increments at_ =>
          exact hbefore (by rw [at_]; rfl)
  | inr hother =>
      obtain ⟨hne, hj⟩ := hother
      have hbefore := locked.mutex j v hj hlocked
      cases h with
      | locks at_ free =>
          rw [free] at hbefore
          cases hbefore
      | unlocks at_ => exact absurd (locked.alone hr hj (by rw [at_]; rfl) hlocked) hne
      | _ => exact hbefore

theorem Locked.moved (locked : Locked s) (hr : s.readers[k]? = some r)
    (h : Moved text s.shared k r r' sh') : Locked ⟨s.readers.set k r', sh'⟩ := by
  have hmem := List.mem_of_getElem? hr
  refine ⟨locked.mutex_moved hr h, ?_, ?_⟩
  · intro v hv hroom
    cases (mem_set_iff hr).mp hv with
    | inl hmoved =>
        subst hmoved
        have hbefore := locked.room r hmem
        cases h with
        | opens | reads | ends | locks | leaves | increments | unlocks | closes => cases hroom
        | tests at_ room => exact room
        | draws at_ | prints at_ | stores at_ => exact hbefore (by rw [at_]; rfl)
    | inr hother =>
        obtain ⟨j, hne, hj⟩ := hother
        have hbefore := locked.room v (List.mem_of_getElem? hj) hroom
        cases h with
        | increments at_ =>
            exact absurd (locked.alone hr hj (by rw [at_]; rfl) (locked_of_hasRoom hroom)) hne
        | _ => exact hbefore
  · cases h with
    | increments at_ => exact locked.room r hmem (by rw [at_]; rfl)
    | _ => exact locked.bound

theorem Recorded.start (thread_ids : List Int) : Recorded (start thread_ids) where
  indices := rfl
  length := by
    have hnone : (MutexSync.start thread_ids).readers.countP Reader.atIncrement = 0 := by
      apply List.countP_eq_zero.mpr
      intro r hr
      obtain ⟨id, -, rfl⟩ := List.mem_map.mp hr
      exact Bool.false_ne_true
    rw [hnone]
    rfl
  data := fun _ h => absurd h List.not_mem_nil

theorem Recorded.length_store (recorded : Recorded s) (locked : Locked s)
    (hr : s.readers[k]? = some r) (at_ : r.pc = .store) :
    s.shared.stored.length = s.shared.count := by
  have hnone : s.readers.countP Reader.atIncrement = 0 := by
    apply List.countP_eq_zero.mpr
    intro v hv hat
    obtain ⟨j, hj⟩ := List.mem_iff_getElem?.mp hv
    have hpc : v.pc = .increment := of_decide_eq_true hat
    have hjk := locked.alone hr hj (by rw [at_]; rfl) (by rw [hpc]; rfl)
    subst hjk
    rw [hr] at hj
    cases hj
    rw [at_] at hpc
    cases hpc
  have hlength := recorded.length
  rwa [hnone, Nat.add_zero] at hlength

theorem Recorded.index_lt (recorded : Recorded s) {store : Store}
    (h : store ∈ s.shared.stored) : store.index < s.shared.stored.length := by
  have hmem := List.mem_map_of_mem (f := Store.index) h
  rw [recorded.indices] at hmem
  exact List.mem_range.mp hmem

theorem Recorded.keep (recorded : Recorded s) (hr : s.readers[k]? = some r)
    (hbefore : r.atIncrement = false) (hafter : r'.atIncrement = false)
    (hdata : sh'.data = s.shared.data) (hcount : sh'.count = s.shared.count)
    (hstored : sh'.stored = s.shared.stored) : Recorded ⟨s.readers.set k r', sh'⟩ := by
  have hmoved := countP_moved Reader.atIncrement hr r'
  rw [hbefore, hafter] at hmoved
  refine ⟨?_, ?_, ?_⟩
  · rw [hstored]
    exact recorded.indices
  · rw [hstored, hcount, recorded.length]
    exact congrArg (s.shared.count + ·) hmoved.symm
  · rw [hstored, hdata]
    exact recorded.data

/-- The next index is stored at, and no earlier one. -/
theorem Recorded.store (recorded : Recorded s) (locked : Locked s) (hr : s.readers[k]? = some r)
    (at_ : r.pc = .store) :
    Recorded ⟨s.readers.set k (r.goto .increment), s.shared.store k r⟩ := by
  have hnext := recorded.length_store locked hr at_
  have hlength := recorded.length
  have hmoved := countP_moved Reader.atIncrement hr (r.goto .increment)
  have hbefore : r.atIncrement = false := by simp [Reader.atIncrement, at_]
  have hafter : (r.goto .increment).atIncrement = true := rfl
  rw [hbefore, hafter, Bool.toNat_false, Bool.toNat_true] at hmoved
  refine ⟨?_, ?_, ?_⟩
  · simp only [Shared.store, List.map_append, recorded.indices, List.length_append,
      List.length_singleton, List.range_succ, ← hnext]
    rfl
  · simp only [Shared.store, List.length_append, List.length_singleton]
    omega
  · intro store hmem
    simp only [Shared.store] at hmem ⊢
    cases List.mem_append.mp hmem with
    | inl hold =>
        have hlt := recorded.index_lt hold
        rw [Function.update_of_ne (by omega)]
        exact recorded.data store hold
    | inr hnew =>
        rw [List.mem_singleton.mp hnew]
        exact Function.update_self _ _ _

theorem Recorded.increment (recorded : Recorded s) (hr : s.readers[k]? = some r)
    (at_ : r.pc = .increment) :
    Recorded ⟨s.readers.set k (r.goto .unlock), { s.shared with count := s.shared.count + 1 }⟩ := by
  have hlength := recorded.length
  have hmoved := countP_moved Reader.atIncrement hr (r.goto .unlock)
  have hbefore : r.atIncrement = true := by simp [Reader.atIncrement, at_]
  have hafter : (r.goto .unlock).atIncrement = false := rfl
  rw [hbefore, hafter, Bool.toNat_false, Bool.toNat_true] at hmoved
  refine ⟨recorded.indices, ?_, recorded.data⟩
  simp only
  omega

theorem Recorded.moved (recorded : Recorded s) (locked : Locked s) (hr : s.readers[k]? = some r)
    (h : Moved text s.shared k r r' sh') : Recorded ⟨s.readers.set k r', sh'⟩ := by
  cases h with
  | stores at_ => exact recorded.store locked hr at_
  | increments at_ => exact recorded.increment hr at_
  | leaves at_ =>
      refine recorded.keep hr ?_ rfl rfl rfl rfl
      cases at_ with | _ at_ => simp [Reader.atIncrement, at_]
  | opens at_ | reads at_ | ends at_ | locks at_ | tests at_ | draws at_ | prints at_
  | unlocks at_ | closes at_ =>
      exact recorded.keep hr (by simp [Reader.atIncrement, at_]) rfl rfl rfl rfl

theorem Taken.start (thread_ids : List Int) : Taken text (start thread_ids) where
  opened := by
    intro r hr
    obtain ⟨id, -, rfl⟩ := List.mem_map.mp hr
    rfl
  line := by
    intro r hr hline
    obtain ⟨id, -, rfl⟩ := List.mem_map.mp hr
    cases hline
  stored := fun _ h => absurd h List.not_mem_nil

theorem Taken.prefix (taken : Taken text s) (hr : r ∈ s.readers) :
    r.taken <+: pieces (maxFile - 1) text := by
  have hopened := taken.opened r hr
  split at hopened
  · rw [hopened]
    exact List.nil_prefix
  · rw [hopened]
    exact List.prefix_append _ _

theorem Taken.moved (taken : Taken text s) (hr : s.readers[k]? = some r)
    (h : Moved text s.shared k r r' sh') : Taken text ⟨s.readers.set k r', sh'⟩ := by
  have hmem := List.mem_of_getElem? hr
  have hopened := taken.opened r hmem
  have hline := taken.line r hmem
  have hkept : ∀ store ∈ s.shared.stored, ∃ v, (s.readers.set k r')[store.reader]? = some v ∧
      store.line ∈ v.taken := by
    intro store hstore
    obtain ⟨v, hv, htaken⟩ := taken.stored store hstore
    by_cases hk : store.reader = k
    · rw [hk, hr] at hv
      cases hv
      exact ⟨r', (getElem?_set_iff hr).mpr (.inl ⟨hk, rfl⟩), h.taken.subset htaken⟩
    · exact ⟨v, (getElem?_set_iff hr).mpr (.inr ⟨hk, hv⟩), htaken⟩
  refine ⟨forall_moved taken.opened ?_, forall_moved taken.line ?_, ?_⟩
  · cases h with
    | opens at_ =>
        rw [if_pos at_] at hopened
        rw [if_neg Pc.noConfusion, hopened]
        rfl
    | reads at_ more =>
        rw [if_neg (by rw [at_]; exact Pc.noConfusion), pieces_cons (by decide) more] at hopened
        rw [if_neg Pc.noConfusion, hopened, Reader.read, List.append_assoc]
        rfl
    | leaves at_ =>
        rw [if_neg (by cases at_ with | _ at_ => rw [at_]; exact Pc.noConfusion)] at hopened
        exact hopened
    | ends at_ | locks at_ | tests at_ | draws at_ | prints at_ | stores at_ | increments at_
    | unlocks at_ | closes at_ =>
        rw [if_neg (by rw [at_]; exact Pc.noConfusion)] at hopened
        exact hopened
  · intro hafter
    cases h with
    | opens | ends | unlocks | closes => cases hafter
    | reads => exact List.mem_append_right _ List.mem_cons_self
    | leaves at_ => exact hline (by cases at_ with | _ at_ => rw [at_]; rfl)
    | locks at_ | tests at_ | draws at_ | prints at_ | stores at_ | increments at_ =>
        exact hline (by rw [at_]; rfl)
  · cases h with
    | stores at_ =>
        intro store hstore
        cases List.mem_append.mp hstore with
        | inl hold => exact hkept store hold
        | inr hnew =>
            rw [List.mem_singleton.mp hnew]
            exact ⟨r.goto .increment, (getElem?_set_iff hr).mpr (.inl ⟨rfl, rfl⟩),
              hline (by rw [at_]; rfl)⟩
    | _ => exact hkept

structure Guarded (text : List Char) (s : State) : Prop where
  locked : Locked s
  recorded : Recorded s
  taken : Taken text s

theorem Guarded.start (thread_ids : List Int) : Guarded text (start thread_ids) :=
  ⟨Locked.start thread_ids, Recorded.start thread_ids, Taken.start thread_ids⟩

theorem Guarded.step {e : Turn} (guarded : Guarded text s) (h : step text s e = some t) :
    Guarded text t := by
  obtain ⟨r, r', sh, hr, hmoved, rfl⟩ := step_moved h
  exact ⟨guarded.locked.moved hr hmoved, guarded.recorded.moved guarded.locked hr hmoved,
    guarded.taken.moved hr hmoved⟩

theorem Guarded.storedOnce (guarded : Guarded text s) : StoredOnce text s := by
  have hrecorded := guarded.recorded
  refine ⟨guarded.locked.bound, ?_, ?_⟩
  · intro i hi
    have hlength := hrecorded.length
    have hcount : (s.shared.stored.map Store.index).count i = 1 := by
      rw [hrecorded.indices]
      exact List.count_eq_one_of_mem List.nodup_range (List.mem_range.mpr (by omega))
    rw [List.count, List.countP_map] at hcount
    exact hcount
  · rintro i hi store hstore rfl
    obtain ⟨r, hr, hline⟩ := guarded.taken.stored store hstore
    exact ⟨hrecorded.data store hstore, r, hr, hline,
      guarded.taken.prefix (List.mem_of_getElem? hr)⟩

structure Keeps (s t : State) : Prop where
  count : s.shared.count ≤ t.shared.count
  data : ∀ i < s.shared.count, t.shared.data i = s.shared.data i
  stored : s.shared.stored <+: t.shared.stored

theorem Keeps.moved (h : Moved text t.shared k r r' sh') (keeps : Keeps s t) :
    Keeps s ⟨t.readers.set k r', sh'⟩ := by
  cases h with
  | stores at_ =>
      refine ⟨keeps.count, fun i hi => ?_, keeps.stored.trans (List.prefix_append _ _)⟩
      have hne : i ≠ t.shared.count := Nat.ne_of_lt (Nat.lt_of_lt_of_le hi keeps.count)
      exact (Function.update_of_ne hne _ _).trans (keeps.data i hi)
  | increments at_ => exact ⟨Nat.le_succ_of_le keeps.count, keeps.data, keeps.stored⟩
  | _ => exact ⟨keeps.count, keeps.data, keeps.stored⟩

/-- In every run of any number of readers, whatever the draws: the array is not overrun, the
indices below `count` were stored at once, with numbers of lines that the storing readers had
taken, and the rest of the run leaves them as they are. -/
theorem lines_stored_once (text : List Char) (thread_ids : List Int) (as : List Turn) (s : State)
    (h : run (step text) (start thread_ids) as = some s) :
    StoredOnce text s ∧
      ∀ bs cs t, as = bs ++ cs → run (step text) (start thread_ids) bs = some t → Keeps t s := by
  have guarded : ∀ {as t}, run (step text) (MutexSync.start thread_ids) as = some t →
      Guarded text t :=
    fun ht => invariant_run (fun _ _ _ hs hstep => Guarded.step hs hstep)
      (Guarded.start thread_ids) ht
  refine ⟨(guarded h).storedOnce, ?_⟩
  rintro bs cs t rfl ht
  obtain ⟨m, hm, hs⟩ := run_append.mp h
  rw [ht] at hm
  cases hm
  refine invariant_run (I := Keeps t) ?_ ⟨Nat.le_refl _, fun _ _ => rfl, List.prefix_rfl⟩ hs
  intro u e v keeps hstep
  obtain ⟨r, r', sh, hr, hmoved, rfl⟩ := step_moved hstep
  exact keeps.moved hmoved

/-- Two readers of two lines: the first one stores the first line, and the second one the other,
which is cut to an `int`. -/
theorem lines_stored_once_first : ∃ s, run (step "17\n2147483648\n".toList) (start [1, 2])
    (List.replicate 9 ⟨0, 0⟩ ++ List.replicate 6 ⟨1, 0⟩ ++ List.replicate 8 ⟨1, 1⟩) = some s ∧
      s.shared.count = 2 ∧ s.shared.data 0 = 17 ∧ s.shared.data 1 = -2147483648 ∧
      StoredOnce "17\n2147483648\n".toList s := by
  have hends : (run (step "17\n2147483648\n".toList) (start [1, 2])
      (List.replicate 9 ⟨0, 0⟩ ++ List.replicate 6 ⟨1, 0⟩ ++ List.replicate 8 ⟨1, 1⟩)).map
        (fun s => (s.shared.count, s.shared.data 0, s.shared.data 1)) =
      some (2, 17, -2147483648) := by decide +kernel
  obtain ⟨s, hs, hvalues⟩ := Option.map_eq_some_iff.mp hends
  simp only [Prod.mk.injEq] at hvalues
  exact ⟨s, hs, hvalues.1, hvalues.2.1, hvalues.2.2, (lines_stored_once _ _ _ s hs).1⟩

end LinuxTraining.MutexSync
