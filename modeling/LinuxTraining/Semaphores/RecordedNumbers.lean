import LinuxTraining.Semaphores.WritingFile

/-!
The numbers that the threads record. Two threads are in their critical sections at once
when they have drawn different files, so one of them can lose the increment of the other
or print it a second time; and a line reaches its file after the semaphore is posted, so
it can be overtaken by a later one.
-/
namespace LinuxTraining.WritingFile
open Execution Semaphore

def upTo (k : Nat) : Multiset Nat := (List.range' 1 k : List Nat)

def Pc.buffered (pc : Pc) : Multiset Nat :=
  match pc.unflushed with
  | some (_, number) => {number}
  | none => 0

def Pc.printing : Pc → Bool
  | .fprintf _ => true
  | _ => false

def Pc.storing : Pc → Bool
  | .store _ _ => true
  | _ => false

/-- A thread closes a file with a number larger than the one that another thread has in
its buffer for the same file. -/
def Pc.overtakes (pc other : Pc) : Bool :=
  match pc, other.unflushed with
  | .fclose file number, some (file', number') => decide (file' = file ∧ number' < number)
  | _, _ => false

variable {n : Nat}

def State.recorded (s : State n) : Multiset Nat :=
  (s.numbers .output1 : Multiset Nat) + (s.numbers .output2 : Multiset Nat) +
    ∑ t, (s.pc t).buffered

def State.pending (s : State n) : Nat := occupants Pc.printing s.pc

def State.increments (s : State n) : Nat := s.recorded.card + s.pending

variable {maxValue : Nat} {s u : State n} {t : Fin n}

theorem storing_of_updating {pc : Pc} (h : pc.updating = false) : pc.storing = false := by
  cases pc with
  | store => simp [Pc.updating] at h
  | _ => rfl

theorem printing_of_updating {pc : Pc} (h : pc.updating = false) : pc.printing = false := by
  cases pc with
  | fprintf => simp [Pc.updating] at h
  | _ => rfl

theorem upTo_succ (k : Nat) : upTo (k + 1) = upTo k + {k + 1} := by
  rw [upTo, List.range'_1_concat, ← Multiset.coe_add, Nat.add_comm 1 k]
  rfl

theorem mem_upTo {k x : Nat} : x ∈ upTo k ↔ 1 ≤ x ∧ x ≤ k := by
  simp only [upTo, Multiset.mem_coe, List.mem_range'_1]
  omega

theorem card_upTo (k : Nat) : (upTo k).card = k := by
  simp [upTo]

theorem nodup_upTo (k : Nat) : (upTo k).Nodup :=
  Multiset.coe_nodup.mpr (List.nodup_range' ..)

theorem pending_goto (pc : Pc) :
    (s.goto t pc).pending + (s.pc t).printing.toNat = s.pending + pc.printing.toNat :=
  occupants_update _ _ t pc

theorem recorded_goto (pc : Pc) :
    (s.goto t pc).recorded + (s.pc t).buffered = s.recorded + pc.buffered := by
  have hsum := sum_update Pc.buffered s.pc t pc
  simp only [State.recorded, State.numbers, State.goto, add_assoc, hsum]

theorem recorded_goto_of_eq {pc : Pc} (hbuffer : pc.buffered = (s.pc t).buffered) :
    (s.goto t pc).recorded = s.recorded := by
  have hgoto := recorded_goto (s := s) (t := t) pc
  rw [hbuffer] at hgoto
  exact add_right_cancel hgoto

theorem pending_goto_of_eq {pc : Pc} (hprinting : pc.printing = (s.pc t).printing) :
    (s.goto t pc).pending = s.pending := by
  have hgoto := pending_goto (s := s) (t := t) pc
  rw [hprinting] at hgoto
  exact add_right_cancel hgoto

theorem recorded_fclose {file : File} {number : Nat} (at_ : s.pc t = .fclose file number) :
    ({ s.goto t .fopen with
        lines := Function.update s.lines file (s.lines file ++ [⟨t + 1, number⟩])
        i := Function.update s.i t (s.i t + 1) } : State n).recorded = s.recorded := by
  have hsum := sum_update Pc.buffered s.pc t .fopen
  have hold : (s.pc t).buffered = {number} := by simp [at_, Pc.buffered, Pc.unflushed]
  have hnew : Pc.fopen.buffered = 0 := rfl
  rw [hold, hnew, add_zero] at hsum
  have hfiles : (s.recorded : Multiset Nat) = (s.numbers .output1 : Multiset Nat) +
      s.numbers .output2 + (∑ v, (Function.update s.pc t .fopen v).buffered + {number}) := by
    rw [State.recorded, ← hsum]
  rw [hfiles]
  cases file with
  | output1 =>
      simp only [State.recorded, State.numbers, State.goto, Function.update_self, List.map_append,
        List.map_cons, List.map_nil, ne_eq, reduceCtorEq, not_false_eq_true, Function.update_of_ne,
        ← Multiset.coe_add, Multiset.coe_singleton]
      ac_rfl
  | output2 =>
      simp only [State.recorded, State.numbers, State.goto, Function.update_self, List.map_append,
        List.map_cons, List.map_nil, ne_eq, reduceCtorEq, not_false_eq_true, Function.update_of_ne,
        ← Multiset.coe_add, Multiset.coe_singleton]
      ac_rfl

inductive Counts (s : State n) (e : Event n) (u : State n) : Prop where
  | idle (counter : u.g_common_var = s.g_common_var) (recorded : u.recorded = s.recorded)
      (pending : u.pending = s.pending)
      (kept : ∀ v file loaded, s.pc v = .store file loaded → u.pc v = .store file loaded)
      (new : ∀ v file loaded, u.pc v = .store file loaded →
        s.pc v = .store file loaded ∨ loaded = s.g_common_var)
  | store (t : Fin n) (file : File) (loaded : Nat) (mover : e = .run t)
      (at_ : s.pc t = .store file loaded) (counter : u.g_common_var = loaded + 1)
      (recorded : u.recorded = s.recorded) (pending : u.pending = s.pending + 1)
      (stores : ∀ v file loaded,
        u.pc v = .store file loaded ↔ v ≠ t ∧ s.pc v = .store file loaded)
  | record (counter : u.g_common_var = s.g_common_var)
      (recorded : u.recorded = s.recorded + {s.g_common_var})
      (pending : u.pending + 1 = s.pending)
      (stores : ∀ v file loaded, u.pc v = .store file loaded ↔ s.pc v = .store file loaded)

theorem goto_store_iff {pc : Pc} {v : Fin n} {file : File} {loaded : Nat} :
    (s.goto t pc).pc v = .store file loaded ↔
      (v = t ∧ pc = .store file loaded) ∨ (v ≠ t ∧ s.pc v = .store file loaded) := by
  by_cases hv : v = t
  · simp [State.goto, hv]
  · simp [State.goto, hv]

theorem goto_store_of_ne {pc : Pc} (hfrom : (s.pc t).storing = false) (hto : pc.storing = false)
    (v : Fin n) (file : File) (loaded : Nat) :
    (s.goto t pc).pc v = .store file loaded ↔ s.pc v = .store file loaded := by
  rw [goto_store_iff]
  by_cases hv : v = t
  · subst hv
    refine iff_of_false (fun h => ?_) fun h => ?_
    · cases h with
      | inl h => simp [h.2, Pc.storing] at hto
      | inr h => exact h.1 rfl
    · simp [h, Pc.storing] at hfrom
  · simp [hv]

theorem counts_store {file : File} {loaded : Nat} (at_ : s.pc t = .store file loaded)
    (hu : u = { s.goto t (.fprintf file) with g_common_var := loaded + 1 }) :
    u.recorded = s.recorded ∧ u.pending = s.pending + 1 ∧ ∀ v file loaded,
      u.pc v = .store file loaded ↔ v ≠ t ∧ s.pc v = .store file loaded := by
  subst hu
  refine ⟨recorded_goto_of_eq (by simp [at_, Pc.buffered, Pc.unflushed]), ?_, fun v f l => ?_⟩
  · change (s.goto t (.fprintf file)).pending = s.pending + 1
    have hgoto := pending_goto (s := s) (t := t) (.fprintf file)
    simpa [at_, Pc.printing] using hgoto
  · rw [goto_store_iff (s := s)]
    simp

theorem counts {e : Event n} (h : Moves s e u) : Counts s e u := by
  cases h with
  | @silent _ t pc sem mover from_ open_ to_ buffer =>
      have hstores := goto_store_of_ne (s := s) (t := t) (storing_of_updating from_)
        (storing_of_updating to_)
      refine .idle rfl (recorded_goto_of_eq (by simp only [Pc.buffered, buffer]))
        (pending_goto_of_eq ?_) (fun v f l => (hstores v f l).mpr)
        fun v f l hv => .inl ((hstores v f l).mp hv)
      rw [printing_of_updating from_, printing_of_updating to_]
  | @load t file at_ =>
      refine .idle rfl (recorded_goto_of_eq (by simp [at_, Pc.buffered, Pc.unflushed]))
        (pending_goto_of_eq (by simp [at_, Pc.printing])) (fun v f l hv => ?_) fun v f l hv => ?_
      · exact goto_store_iff.mpr (.inr ⟨fun hvt => by simp [← hvt, hv] at at_, hv⟩)
      · cases goto_store_iff.mp hv with
        | inl hmoved => exact .inr (Pc.store.inj hmoved.2).2.symm
        | inr hold => exact .inl hold.2
  | @store t file loaded at_ =>
      obtain ⟨hrecorded, hpending, hstores⟩ := counts_store at_ rfl
      exact .store t file loaded rfl at_ rfl hrecorded hpending hstores
  | @fprintf t file at_ =>
      refine .record rfl ?_ ?_ (goto_store_of_ne (by simp [at_, Pc.storing]) rfl)
      · have hgoto := recorded_goto (s := s) (t := t) (.printf file s.g_common_var)
        simpa [at_, Pc.buffered, Pc.unflushed] using hgoto
      · have hgoto := pending_goto (s := s) (t := t) (.printf file s.g_common_var)
        simpa [at_, Pc.printing] using hgoto
  | @fclose t file number at_ =>
      have hfrom : (s.pc t).storing = false := by simp [at_, Pc.storing]
      have hto : Pc.fopen.storing = false := rfl
      have hstores := goto_store_of_ne hfrom hto
      exact .idle rfl (recorded_fclose at_)
        (pending_goto_of_eq (by simp [at_, Pc.printing])) (fun v f l => (hstores v f l).mpr)
        fun v f l hv => .inl ((hstores v f l).mp hv)

/-- No other thread is between its load of the counter and its `fprintf` when one stores
the increment, and nobody closes a file with a number larger than one that waits in
another buffer for the same file. -/
def Undisturbed (s : State n) (e : Event n) : Prop :=
  ∀ t, e = .run t →
    ((s.pc t).storing = true → ∀ v, v ≠ t → (s.pc v).updating = false) ∧
    ∀ v, v ≠ t → (s.pc t).overtakes (s.pc v) = false

instance (s : State n) (e : Event n) : Decidable (Undisturbed s e) := by
  unfold Undisturbed
  infer_instance

/-- The counter is the number of increments, and what is recorded or about to be
recorded are the numbers up to it; the files are in order, and what waits in a buffer
comes after what is in its file. -/
structure Kept (s : State n) : Prop where
  tally : s.recorded + Multiset.replicate s.pending s.g_common_var = upTo s.g_common_var
  loaded : ∀ t file loaded, s.pc t = .store file loaded → loaded = s.g_common_var
  sorted : ∀ file, (s.numbers file).Pairwise (· < ·)
  flushed : ∀ file x t y, x ∈ s.numbers file → (s.pc t).unflushed = some (file, y) → x < y

theorem Kept.start (n : Nat) : Kept (start n) where
  tally := by
    have hpending : (WritingFile.start n).pending = 0 := by
      simp [State.pending, occupants, WritingFile.start, Pc.printing]
    rw [hpending]
    simp [State.recorded, State.numbers, WritingFile.start, Pc.buffered, Pc.unflushed, upTo]
  loaded := by simp [WritingFile.start]
  sorted := by simp [State.numbers, WritingFile.start]
  flushed := by simp [State.numbers, WritingFile.start]

theorem Kept.increments (hs : Kept s) : s.increments = s.g_common_var := by
  have hcard := congrArg Multiset.card hs.tally
  rwa [Multiset.card_add, Multiset.card_replicate, card_upTo] at hcard

theorem Kept.nodup (hs : Kept s) :
    (s.recorded + Multiset.replicate s.pending s.g_common_var).Nodup := by
  rw [hs.tally]
  exact nodup_upTo _

theorem Kept.le_counter (hs : Kept s) {x : Nat} (hx : x ∈ s.recorded) : x ≤ s.g_common_var := by
  have hmem : x ∈ upTo s.g_common_var := by
    rw [← hs.tally]
    exact Multiset.mem_add.mpr (.inl hx)
  exact (mem_upTo.mp hmem).2

theorem mem_recorded_of_mem {file : File} {x : Nat} (hx : x ∈ s.numbers file) :
    x ∈ s.recorded := by
  rw [State.recorded, Multiset.mem_add, Multiset.mem_add]
  cases file with
  | output1 => exact .inl (.inl hx)
  | output2 => exact .inl (.inr hx)

theorem pending_pos {file : File} (at_ : s.pc t = .fprintf file) : 0 < s.pending :=
  occupants_pos (i := t) (by simp [at_, Pc.printing])

/-- The value that a thread is about to record is larger than all that are recorded. -/
theorem Kept.lt_counter (hs : Kept s) {file : File} (at_ : s.pc t = .fprintf file) {x : Nat}
    (hx : x ∈ s.recorded) : x < s.g_common_var := by
  refine Nat.lt_of_le_of_ne (hs.le_counter hx) fun heq => ?_
  have hdisjoint := (Multiset.nodup_add.mp hs.nodup).2.2
  refine Multiset.disjoint_left.mp hdisjoint hx ?_
  rw [heq]
  exact Multiset.mem_replicate.mpr ⟨(pending_pos at_).ne', rfl⟩

/-- Two buffers do not hold the same number. -/
theorem Kept.buffers_ne (hs : Kept s) {t v : Fin n} (hne : t ≠ v) {file : File} {x y : Nat}
    (hx : (s.pc t).unflushed = some (file, x)) (hy : (s.pc v).unflushed = some (file, y)) :
    x ≠ y := by
  intro heq
  have hpair := pair_le_sum (fun w => (s.pc w).buffered) hne
  have hall : (∑ w, (s.pc w).buffered) ≤ s.recorded := Multiset.le_add_left _ _
  have hnodup := Multiset.nodup_of_le (hpair.trans hall) (Multiset.nodup_add.mp hs.nodup).1
  simp [Pc.buffered, hx, hy, heq] at hnodup

theorem pending_eq_zero (h : ∀ t, (s.pc t).printing = false) : s.pending = 0 := by
  simp [State.pending, occupants, h]

/-- When a thread stores undisturbed, all the others are outside of their updates. -/
theorem Undisturbed.alone (hc : Undisturbed s (.run t)) {file : File} {loaded : Nat}
    (at_ : s.pc t = .store file loaded) :
    s.pending = 0 ∧ ∀ v file loaded, v ≠ t → s.pc v ≠ .store file loaded := by
  have hothers := (hc t rfl).1 (by simp [at_, Pc.storing])
  refine ⟨pending_eq_zero fun v => ?_, fun v file loaded hv hstore => ?_⟩
  · by_cases hv : v = t
    · simp [hv, at_, Pc.printing]
    · exact printing_of_updating (hothers v hv)
  · simpa [hstore, Pc.updating] using hothers v hv

theorem Kept.tally_step {e : Event n} (hs : Kept s) (hc : Undisturbed s e)
    (hcounts : Counts s e u) :
    u.recorded + Multiset.replicate u.pending u.g_common_var = upTo u.g_common_var ∧
      ∀ v file loaded, u.pc v = .store file loaded → loaded = u.g_common_var := by
  cases hcounts with
  | idle counter recorded pending kept new =>
      rw [counter, recorded, pending]
      refine ⟨hs.tally, fun v file loaded hv => ?_⟩
      cases new v file loaded hv with
      | inl hold => exact hs.loaded v file loaded hold
      | inr hnew => exact hnew
  | store t file loaded mover at_ counter recorded pending stores =>
      subst mover
      obtain ⟨hzero, hothers⟩ := hc.alone at_
      have htally := hs.tally
      rw [hzero, Multiset.replicate_zero, add_zero] at htally
      rw [counter, hs.loaded t file loaded at_, recorded, pending, hzero, htally, upTo_succ]
      refine ⟨rfl, fun v file loaded hv => ?_⟩
      obtain ⟨hne, hstore⟩ := (stores v file loaded).mp hv
      exact absurd hstore (hothers v file loaded hne)
  | record counter recorded pending stores =>
      rw [counter, recorded]
      refine ⟨?_, fun v file loaded hv => hs.loaded v file loaded ((stores v file loaded).mp hv)⟩
      rw [← hs.tally, ← pending, Multiset.replicate_succ, add_assoc, Multiset.singleton_add]

theorem numbers_fclose {file file' : File} {number : Nat} {v : Fin n} :
    State.numbers { s.goto v .fopen with
        lines := Function.update s.lines file (s.lines file ++ [⟨v + 1, number⟩])
        i := Function.update s.i v (s.i v + 1) } file' =
      if file' = file then s.numbers file ++ [number] else s.numbers file' := by
  by_cases hfile : file' = file
  · simp [State.numbers, hfile]
  · simp [State.numbers, hfile]

theorem unflushed_goto {pc : Pc} {v : Fin n} {file : File} {y : Nat}
    (h : ((s.goto t pc).pc v).unflushed = some (file, y)) :
    (v = t ∧ pc.unflushed = some (file, y)) ∨ (v ≠ t ∧ (s.pc v).unflushed = some (file, y)) := by
  by_cases hv : v = t
  · exact .inl ⟨hv, by simpa [State.goto, hv] using h⟩
  · exact .inr ⟨hv, by simpa [State.goto, hv] using h⟩

theorem Kept.flushed_goto (hs : Kept s) {pc : Pc}
    (hbuffer : pc.unflushed = none ∨ pc.unflushed = (s.pc t).unflushed) {file : File} {x y : Nat}
    {v : Fin n} (hx : x ∈ s.numbers file)
    (hy : ((s.goto t pc).pc v).unflushed = some (file, y)) : x < y := by
  cases unflushed_goto hy with
  | inl hmoved =>
      obtain ⟨rfl, hnew⟩ := hmoved
      cases hbuffer with
      | inl hnone => simp [hnone] at hnew
      | inr hsame => exact hs.flushed file x v y hx (hsame ▸ hnew)
  | inr hold => exact hs.flushed file x v y hx hold.2

theorem Kept.step {e : Event n} (hs : Kept s) (hc : Undisturbed s e)
    (hmoves : Moves s e u) : Kept u := by
  obtain ⟨htally, hloaded⟩ := hs.tally_step hc (counts hmoves)
  cases hmoves with
  | silent mover from_ open_ to_ buffer =>
      exact ⟨htally, hloaded, hs.sorted, fun file x v y hx hy =>
        hs.flushed_goto (.inr buffer) hx hy⟩
  | load at_ =>
      exact ⟨htally, hloaded, hs.sorted, fun file x v y hx hy =>
        hs.flushed_goto (.inl rfl) hx hy⟩
  | store at_ =>
      exact ⟨htally, hloaded, hs.sorted, fun file x v y hx hy =>
        hs.flushed_goto (.inl rfl) hx hy⟩
  | fprintf at_ =>
      refine ⟨htally, hloaded, hs.sorted, fun file x v y hx hy => ?_⟩
      cases unflushed_goto hy with
      | inl hmoved =>
          have hy := (Prod.mk.inj (Option.some.inj hmoved.2)).2
          exact hy ▸ hs.lt_counter at_ (mem_recorded_of_mem hx)
      | inr hold => exact hs.flushed file x v y hx hold.2
  | @fclose t file number at_ =>
      have hbuffer : (s.pc t).unflushed = some (file, number) := by simp [at_, Pc.unflushed]
      refine ⟨htally, hloaded, fun file' => ?_, fun file' x v y hx hy => ?_⟩
      · rw [numbers_fclose]
        by_cases hfile : file' = file
        · rw [if_pos hfile, List.pairwise_append]
          refine ⟨hs.sorted file, List.pairwise_singleton _ _, fun x hx y hy => ?_⟩
          rw [List.mem_singleton.mp hy]
          exact hs.flushed file x t number hx hbuffer
        · rw [if_neg hfile]
          exact hs.sorted file'
      · cases unflushed_goto hy with
        | inl hmoved => cases hmoved.2
        | inr hold =>
            obtain ⟨hne, hwaits⟩ := hold
            rw [numbers_fclose] at hx
            by_cases hfile : file' = file
            · subst hfile
              rw [if_pos rfl, List.mem_append] at hx
              cases hx with
              | inl hx => exact hs.flushed file' x v y hx hwaits
              | inr hx =>
                  rw [List.mem_singleton.mp hx]
                  have hkeeps := (hc t rfl).2 v hne
                  simp only [Pc.overtakes, at_, hwaits, true_and, decide_eq_false_iff_not] at hkeeps
                  have hdiffer := hs.buffers_ne hne hwaits hbuffer
                  omega
            · rw [if_neg hfile] at hx
              exact hs.flushed file' x v y hx hwaits

end LinuxTraining.WritingFile
