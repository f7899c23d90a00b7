import LinuxTraining.Socket.Descriptors
import Mathlib.Algebra.BigOperators.Group.List.Basic

/-!
What `client_count` counts when its updates are atomic. A handler may take itself off
the count before main has put it on, so the count can be -1 for a moment, but only
between `pthread_create` and `client_count++`. A handler whose `read` fails never takes
itself off.
-/
namespace LinuxTraining.Socket
open Execution Threads

def Handler.left (h : Handler) : Bool :=
  decide ((h.pc = .close ∨ h.pc = .ended) ∧ h.bytes_read = 0)

def Handler.live (h : Handler) : Bool := decide (h.pc ≠ .ended)

def Handler.failed (h : Handler) : Bool := decide (h.bytes_read < 0)

/-- The accepted connections whose handler has not ended. -/
def State.live (s : State) : Nat := s.handlers.countP Handler.live

def MainPc.uncounted : MainPc → Nat
  | .increment _ => 1
  | _ => 0

def MainPc.Bounds (count : Int) : MainPc → Prop
  | .assign _ _ | .test _ | .printf _ | .create _ | .increment none => count < maxClients
  | .checkMax => count ≤ maxClients
  | .stop | .exited => True
  | .increment (some _) | .undefined => False

def Handler.Consistent (h : Handler) : Prop :=
  match h.pc with
  | .start | .read | .answer => 0 ≤ h.bytes_read
  | .decrement none => h.bytes_read = 0
  | .decrement (some _) => False
  | .close | .ended => h.bytes_read ≤ 0

/-- The count is the number of handlers created, counted and not gone. -/
structure Counted (s : State) : Prop where
  balance : s.client_count + s.main.uncounted + s.handlers.countP Handler.left =
    s.handlers.length
  bounds : s.main.Bounds s.client_count
  handlers : ∀ h ∈ s.handlers, h.Consistent

/-- Main is blocked in `accept`, and no handler is between its last `read` and its end. -/
def State.Quiescent (s : State) : Prop :=
  (∃ index, s.main = .assign index none) ∧
    ∀ h ∈ s.handlers, h.pc = .start ∨ h.pc = .read ∨ h.pc = .answer ∨ h.pc = .ended

def Event.isFailedRead : Event → Bool
  | .read _ n => decide (n < 0)
  | _ => false

variable {s t : State} {k : Nat} {h : Handler}

theorem Counted.start : Counted start where
  balance := by simp [Socket.start, MainPc.uncounted]
  bounds := by simp [Socket.start, MainPc.Bounds, maxClients]
  handlers := by simp [Socket.start]

theorem Counted.goto (hs : Counted s) (hcount : t.client_count = s.client_count)
    (hhandlers : t.handlers = s.handlers) (huncounted : t.main.uncounted = s.main.uncounted)
    (hbounds : t.main.Bounds s.client_count) : Counted t where
  balance := by
    rw [hcount, hhandlers, huncounted]
    exact hs.balance
  bounds := by
    rw [hcount]
    exact hbounds
  handlers := by
    rw [hhandlers]
    exact hs.handlers

theorem MainPc.Bounds.anti {pc : MainPc} {m n : Int} (h : pc.Bounds m) (hle : n ≤ m) :
    pc.Bounds n := by
  cases pc with
  | increment loaded =>
      cases loaded with
      | none =>
          simp only [MainPc.Bounds] at h ⊢
          omega
      | some loaded => exact h
  | stop | exited => trivial
  | undefined => exact h
  | assign | test | printf | create | checkMax =>
      simp only [MainPc.Bounds] at h ⊢
      omega

theorem Counted.handler (hs : Counted s) (found : s.handlers[k]? = some h) {u : Handler}
    (hmain : t.main = s.main) (hhandlers : t.handlers = s.handlers.set k u)
    (hleft : t.client_count + u.left.toNat = s.client_count + h.left.toNat)
    (hle : t.client_count ≤ s.client_count) (hu : u.Consistent) : Counted t where
  balance := by
    have hcount := countP_moved Handler.left found u
    have hbalance := hs.balance
    rw [hmain, hhandlers, List.length_set]
    omega
  bounds := by
    rw [hmain]
    exact hs.bounds.anti hle
  handlers := by
    intro x hx
    rw [hhandlers] at hx
    cases List.mem_or_eq_of_mem_set hx with
    | inl hold => exact hs.handlers x hold
    | inr hnew => exact hnew ▸ hu

theorem atTable_uncounted {e : Event} (h : s.atTable e = true) : s.main.uncounted = 0 := by
  simp only [State.atTable] at h
  split at h
  · rename_i hmain
    simp [hmain, MainPc.uncounted]
  · rename_i hmain
    simp [hmain, MainPc.uncounted]
  · rename_i hmain
    simp [hmain, MainPc.uncounted]
  · rename_i hmain
    simp [hmain, MainPc.uncounted]
  · cases h

/-- Where the table is indexed, every handler is counted that has not left. -/
theorem Counted.inRange {e : Event} (hs : Counted s) (h : s.atTable e = true) :
    0 ≤ s.client_count ∧ s.client_count < maxClients := by
  have hbalance := hs.balance
  have hbounds := hs.bounds
  have hle := List.countP_le_length (p := Handler.left) (l := s.handlers)
  rw [atTable_uncounted h] at hbalance
  refine ⟨by omega, ?_⟩
  simp only [State.atTable] at h
  split at h
  · rename_i hmain
    simpa [hmain, MainPc.Bounds] using hbounds
  · rename_i hmain
    simpa [hmain, MainPc.Bounds] using hbounds
  · rename_i hmain
    simpa [hmain, MainPc.Bounds] using hbounds
  · rename_i hmain
    simpa [hmain, MainPc.Bounds] using hbounds
  · cases h

theorem Counted.step {e : Event} (hs : Counted s) (hstep : step .atomic s e = some t) :
    Counted t := by
  have hbounds := hs.bounds
  have hconsistent := fun k h (found : s.handlers[k]? = some h) =>
    hs.handlers h (List.mem_of_getElem? found)
  cases step_cases hstep with
  | outOfRange at_ out => exact absurd (hs.inRange at_) (slot_eq_none.mp out)
  | evaluate at_ | accept at_ | store at_ | printf at_ =>
      rw [at_] at hbounds
      exact hs.goto rfl rfl (by simp [at_, MainPc.uncounted]) hbounds
  | test at_ inRange =>
      rw [at_] at hbounds
      refine hs.goto rfl rfl ?_ ?_
      · split <;> simp [at_, MainPc.uncounted]
      · split
        · trivial
        · exact hbounds
  | create at_ inRange =>
      rw [at_] at hbounds
      refine ⟨?_, hbounds, ?_⟩
      · have hbalance := hs.balance
        simp only [at_, MainPc.uncounted] at hbalance
        simp only [MainPc.uncounted, List.countP_append, List.length_append,
          List.countP_singleton, List.length_singleton, Handler.left]
        simp
        omega
      · intro h hh
        cases List.mem_append.mp hh with
        | inl hold => exact hs.handlers h hold
        | inr hnew =>
            rw [List.mem_singleton.mp hnew]
            exact Int.le_refl 0
  | createFails at_ inRange =>
      exact hs.goto rfl rfl (by simp [at_, MainPc.uncounted]) trivial
  | increment at_ atomic =>
      rw [at_] at hbounds
      refine ⟨?_, ?_, hs.handlers⟩
      · have hbalance := hs.balance
        simp only [at_, MainPc.uncounted] at hbalance
        simp only [MainPc.uncounted]
        omega
      · simp only [MainPc.Bounds] at hbounds ⊢
        omega
  | incrementLoad at_ loadStore => cases loadStore
  | incrementStore at_ =>
      rw [at_] at hbounds
      exact hbounds.elim
  | checkMax at_ =>
      refine hs.goto rfl rfl ?_ ?_
      · split <;> simp [at_, MainPc.uncounted]
      · split
        · trivial
        · rename_i hmax
          exact Int.not_le.mp hmax
  | stop at_ => exact hs.goto rfl rfl (by simp [at_, MainPc.uncounted]) trivial
  | @start k h runs found at_ | @answer k h runs found at_ | @close k h runs found at_ =>
      have hpc := hconsistent k h found
      rw [Handler.Consistent, at_] at hpc
      exact hs.handler found rfl rfl (by simp [Handler.left, at_]) (Int.le_refl _) hpc
  | @read k h n runs found at_ =>
      refine hs.handler found rfl rfl ?_ (Int.le_refl _) ?_
      · by_cases hpos : 0 < n
        · simp [Handler.left, at_, hpos]
        · by_cases hzero : n = 0
          · simp [Handler.left, at_, hzero]
          · simp [Handler.left, at_, hpos, hzero]
      · by_cases hpos : 0 < n
        · simp [Handler.Consistent, hpos, Int.le_of_lt]
        · by_cases hzero : n = 0
          · simp [Handler.Consistent, hzero]
          · simp only [Handler.Consistent, hpos, hzero, if_false]
            omega
  | @decrement k h runs found at_ atomic =>
      have hpc := hconsistent k h found
      simp only [Handler.Consistent, at_] at hpc
      refine hs.handler found rfl rfl ?_ ?_ ?_
      · simp [Handler.left, at_, hpc]
      · exact Int.sub_le_self _ (by decide)
      · simp [Handler.Consistent, hpc]
  | decrementLoad runs found at_ loadStore => cases loadStore
  | @decrementStore k h loaded runs found at_ =>
      have hpc := hconsistent k h found
      rw [Handler.Consistent, at_] at hpc
      exact hpc.elim

theorem Counted.run {es : List Event} (h : run (Socket.step .atomic) Socket.start es = some s) :
    Counted s :=
  invariant_run (fun _ _ _ hs hstep => hs.step hstep) Counted.start h

/-- Wherever main evaluates `client_sockets[client_count]`, the index is in the table. -/
theorem table_index_in_range (es : List Event) (s : State) (e : Event)
    (h : run (step .atomic) start es = some s) (he : s.atTable e = true) :
    0 ≤ s.client_count ∧ s.client_count ≤ maxClients - 1 := by
  have hrange := (Counted.run h).inRange he
  exact ⟨hrange.1, by omega⟩

def earlyLeave : List Event :=
  [.evaluate, .accept 4, .main, .main, .main, .main, .handler 0, .read 0 0, .handler 0, .main,
    .main]

/-- After the first client has come and gone, main evaluates the table at 0 again. -/
theorem table_index_in_range_early :
    ∃ s, run (step .atomic) start earlyLeave = some s ∧
      0 ≤ s.client_count ∧ s.client_count ≤ maxClients - 1 := by
  have hmap : (run (step .atomic) start earlyLeave).map (fun s => s.atTable .evaluate) =
      some true := by decide +kernel
  obtain ⟨s, hs, he⟩ := Option.map_eq_some_iff.mp hmap
  exact ⟨s, hs, table_index_in_range earlyLeave s .evaluate hs he⟩

theorem Counted.step_failed {e : Event} (hs : Counted s)
    (hstep : Socket.step .atomic s e = some t) :
    t.handlers.countP Handler.failed =
      s.handlers.countP Handler.failed + e.isFailedRead.toNat := by
  have hset : ∀ {k : Nat} {h : Handler} (u : Handler), s.handlers[k]? = some h →
      u.bytes_read = h.bytes_read →
        (s.handlers.set k u).countP Handler.failed = s.handlers.countP Handler.failed := by
    intro k h u found hread
    have hcount := countP_moved Handler.failed found u
    simpa [Handler.failed, hread] using hcount
  cases step_cases hstep with
  | outOfRange at_ =>
      cases e with
      | handler | read => simp [State.atTable] at at_
      | _ => rfl
  | evaluate | accept | store | test | printf | createFails | increment | incrementLoad
    | incrementStore | checkMax | stop => rfl
  | create => simp [Handler.failed, Event.isFailedRead]
  | start _ found | answer _ found | decrement _ found | decrementLoad _ found
    | decrementStore _ found | close _ found => exact hset _ found rfl
  | @read k h n runs found at_ =>
      have hpc := hs.handlers h (List.mem_of_getElem? found)
      simp only [Handler.Consistent, at_] at hpc
      have hcount := countP_moved Handler.failed found { h with
        bytes_read := n
        pc := if 0 < n then .answer else if n = 0 then .decrement none else .close }
      simpa [Handler.failed, Event.isFailedRead, Int.not_lt.mpr hpc] using hcount

theorem ite_eq_toNat (b : Bool) : (if b = true then 1 else 0) = b.toNat := by
  cases b <;> rfl

theorem run_failed {es : List Event} (hs : Counted s)
    (h : Execution.run (Socket.step .atomic) s es = some t) :
    t.handlers.countP Handler.failed =
      s.handlers.countP Handler.failed + es.countP Event.isFailedRead := by
  induction es generalizing s with
  | nil =>
      cases h
      simp
  | cons e es ih =>
      obtain ⟨m, hm, ht⟩ := run_cons.mp h
      rw [ih (hs.step hm) ht, hs.step_failed hm, List.countP_cons, ite_eq_toNat]
      omega

def Handler.accounts (h : Handler) : Nat := h.live.toNat + h.left.toNat + h.failed.toNat

theorem sum_accounts (l : List Handler) : (l.map Handler.accounts).sum =
    l.countP Handler.live + l.countP Handler.left + l.countP Handler.failed := by
  induction l with
  | nil => rfl
  | cons h l ih =>
      simp only [List.map_cons, List.sum_cons, List.countP_cons, ite_eq_toNat, ih,
        Handler.accounts]
      omega

theorem Handler.Consistent.accounts_open (hpc : h.Consistent)
    (hopen : h.pc = .start ∨ h.pc = .read ∨ h.pc = .answer) : h.accounts = 1 := by
  cases hopen with
  | inl hstart =>
      simp only [Handler.Consistent, hstart] at hpc
      simp [Handler.accounts, Handler.live, Handler.left, Handler.failed, hstart, hpc]
  | inr hopen =>
      cases hopen with
      | inl hread =>
          simp only [Handler.Consistent, hread] at hpc
          simp [Handler.accounts, Handler.live, Handler.left, Handler.failed, hread, hpc]
      | inr hanswer =>
          simp only [Handler.Consistent, hanswer] at hpc
          simp [Handler.accounts, Handler.live, Handler.left, Handler.failed, hanswer, hpc]

theorem Handler.Consistent.accounts_ended (hpc : h.Consistent) (hended : h.pc = .ended) :
    h.accounts = 1 := by
  simp only [Handler.Consistent, hended] at hpc
  by_cases hzero : h.bytes_read = 0
  · simp [Handler.accounts, Handler.live, Handler.left, Handler.failed, hended, hzero]
  · have hneg : h.bytes_read < 0 := by omega
    simp [Handler.accounts, Handler.live, Handler.left, Handler.failed, hended, hzero, hneg]

/-- A handler is live, has left, or its `read` failed. -/
theorem Handler.Consistent.accounts_pos (hpc : h.Consistent) : 1 ≤ h.accounts := by
  by_cases hended : h.pc = .ended
  · rw [hpc.accounts_ended hended]
  · have hlive : h.live = true := by simp [Handler.live, hended]
    rw [Handler.accounts, hlive, Bool.toNat_true]
    omega

/-- A handler whose `read` failed stays on the count for ever. -/
theorem Counted.quiescent (hs : Counted s) (hq : s.Quiescent) :
    s.client_count = s.live + s.handlers.countP Handler.failed := by
  obtain ⟨⟨index, hmain⟩, hpcs⟩ := hq
  have hbalance := hs.balance
  have hones : ∀ a ∈ s.handlers.map Handler.accounts, a = 1 := by
    intro a ha
    obtain ⟨h, hh, rfl⟩ := List.mem_map.mp ha
    by_cases hended : h.pc = .ended
    · exact (hs.handlers h hh).accounts_ended hended
    · refine (hs.handlers h hh).accounts_open ?_
      simpa [hended] using hpcs h hh
  have hsum := List.sum_eq_card_nsmul _ 1 hones
  rw [sum_accounts, List.length_map, Nat.nsmul_eq_mul, Nat.mul_one] at hsum
  simp only [hmain, MainPc.uncounted] at hbalance
  simp only [State.live]
  omega

/-- A counted handler is live, or its `read` failed. -/
theorem Counted.count_le (hs : Counted s) :
    s.client_count ≤ s.live + s.handlers.countP Handler.failed := by
  have hbalance := hs.balance
  have hones : ∀ a ∈ s.handlers.map Handler.accounts, 1 ≤ a := by
    intro a ha
    obtain ⟨h, hh, rfl⟩ := List.mem_map.mp ha
    exact (hs.handlers h hh).accounts_pos
  have hsum := List.length_le_sum_of_one_le _ hones
  rw [sum_accounts, List.length_map] at hsum
  simp only [State.live]
  omega

/-- While main is blocked in `accept` and no handler is about to end, the count is that
of the live handlers exactly when no `read` has failed; and in such a run the server
stops accepting only with as many live handlers as it may have. -/
theorem client_count_eq_live_iff (es : List Event) (s : State)
    (h : run (step .atomic) start es = some s) :
    (s.Quiescent → (s.client_count = s.live ↔ ∀ k n, Event.read k n ∈ es → 0 ≤ n)) ∧
      ((∀ k n, Event.read k n ∈ es → 0 ≤ n) → s.main = .checkMax →
        maxClients ≤ s.client_count → maxClients ≤ s.live) := by
  have hs := Counted.run h
  have hfailed := run_failed Counted.start h
  have hwell : (∀ k n, Event.read k n ∈ es → 0 ≤ n) ↔
      s.handlers.countP Handler.failed = 0 := by
    rw [hfailed, Socket.start, List.countP_nil, Nat.zero_add, List.countP_eq_zero]
    constructor
    · intro hreads e he
      cases e with
      | read k n => simpa [Event.isFailedRead] using hreads k n he
      | _ => simp [Event.isFailedRead]
    · intro hreads k n he
      simpa [Event.isFailedRead] using hreads _ he
  refine ⟨fun hq => ?_, fun hreads _ hmax => ?_⟩
  · rw [hwell, hs.quiescent hq]
    omega
  · have hle := hs.count_le
    rw [hwell.mp hreads] at hle
    omega

/-- The first of two clients has left, and the count is that of the live handlers: one. -/
theorem client_count_eq_live_iff_early :
    ∃ s, run (step .atomic) start (firstConnection ++ secondConnection ++
        [.read 0 0, .handler 0, .handler 0]) = some s ∧ s.live = 1 ∧ s.client_count = s.live := by
  have hmap : (run (step .atomic) start (firstConnection ++ secondConnection ++
      [.read 0 0, .handler 0, .handler 0])).map (fun s => (s.main, s.handlers)) =
      some (.assign none none, [⟨0, 4, 4, 0, .ended⟩, ⟨1, 5, 5, 0, .read⟩]) := by decide +kernel
  obtain ⟨s, hs, hstate⟩ := Option.map_eq_some_iff.mp hmap
  obtain ⟨hmain, hhandlers⟩ := Prod.mk.inj hstate
  refine ⟨s, hs, ?_, ((client_count_eq_live_iff _ s hs).1 ⟨⟨none, hmain⟩, ?_⟩).mpr ?_⟩
  · simp [State.live, hhandlers, Handler.live]
  · simp [hhandlers]
  · simp [firstConnection, secondConnection]

/-- The only client has left by an error, and the count stays at 1. -/
theorem failed_read_stays_counted :
    ∃ s, run (step .atomic) start (firstConnection ++ [.read 0 (-1), .handler 0]) = some s ∧
      s.Quiescent ∧ s.client_count = 1 ∧ s.live = 0 := by
  have hmap : (run (step .atomic) start (firstConnection ++ [.read 0 (-1), .handler 0])).map
      (fun s => (s.main, s.handlers, s.client_count)) =
        some (.assign none none, [⟨0, 4, 4, -1, .ended⟩], 1) := by decide +kernel
  obtain ⟨s, hs, hstate⟩ := Option.map_eq_some_iff.mp hmap
  obtain ⟨hmain, hrest⟩ := Prod.mk.inj hstate
  obtain ⟨hhandlers, hcount⟩ := Prod.mk.inj hrest
  refine ⟨s, hs, ⟨⟨none, hmain⟩, by simp [hhandlers]⟩, hcount, ?_⟩
  simp [State.live, hhandlers, Handler.live]

end LinuxTraining.Socket
