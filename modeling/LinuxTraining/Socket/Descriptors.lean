import LinuxTraining.Library.Threads
import LinuxTraining.Socket.Server

/-!
Which descriptor a handler works on. It is read from the table entry whose address
`pthread_create` was given: the entry of `client_count` at that time, which a handler
that ends may have moved since `accept`, and which main may fill again before the
handler reads it.
-/
namespace LinuxTraining.Socket
open Execution Threads

def MainPc.inHand : MainPc → Option Int
  | .assign _ accepted => accepted
  | .test fd | .printf fd | .create fd => some fd
  | _ => none

/-- Every handler works on the connection that was accepted for it, and no two handlers
that have not ended share one. -/
structure EachItsOwn (s : State) : Prop where
  defined : s.main ≠ .undefined
  own : ∀ (k : Nat) (h : Handler), s.handlers[k]? = some h →
    0 ≤ h.accepted ∧ s.descriptor h = h.accepted
  distinct : ∀ (j k : Nat) (i h : Handler), s.handlers[j]? = some i →
    s.handlers[k]? = some h → j ≠ k → i.pc ≠ .ended → h.pc ≠ .ended →
    i.accepted ≠ h.accepted

def State.storesInto (s : State) (e : Event) : Option (Fin maxClients) :=
  match e, s.main with
  | .main, .assign (some i) (some _) => some i
  | _, _ => none

def State.createsFor (s : State) (e : Event) : Option Int :=
  match e, s.main with
  | .main, .create fd => some fd
  | _, _ => none

/-- The table entry of `client_count` exists wherever it is evaluated, no handler has yet
to read the entry that main stores into, and at `pthread_create` the entry of
`client_count` holds the descriptor just accepted. -/
def HandsOver (s : State) (e : Event) : Prop :=
  (s.atTable e = true → slot s.client_count ≠ none) ∧
  (∀ i ∈ s.storesInto e, ∀ h ∈ s.handlers, h.pc = .start → h.arg ≠ i) ∧
  ∀ fd ∈ s.createsFor e, 0 ≤ fd ∧ (slot s.client_count).map s.client_sockets = some fd

instance (s : State) (e : Event) : Decidable (HandsOver s e) := by
  unfold HandsOver
  infer_instance

/-- The descriptors in use are open, and the one in main's hand is nobody's. -/
structure Owned (s : State) : Prop extends EachItsOwn s where
  isOpen : ∀ (k : Nat) (h : Handler), s.handlers[k]? = some h → h.pc ≠ .ended →
    s.isOpen h.accepted = true
  inHand : ∀ fd, s.main.inHand = some fd → 0 ≤ fd → s.isOpen fd = true ∧
    ∀ (k : Nat) (h : Handler), s.handlers[k]? = some h → h.pc ≠ .ended → h.accepted ≠ fd

variable {g : Granularity} {s t : State} {k : Nat} {h : Handler}

theorem storesInto_eq_some {e : Event} {i : Fin maxClients} :
    s.storesInto e = some i ↔ e = .main ∧ ∃ fd, s.main = .assign (some i) (some fd) := by
  constructor
  · intro h
    simp only [State.storesInto] at h
    split at h
    · rename_i hmain
      exact ⟨rfl, _, Option.some.inj h ▸ hmain⟩
    · cases h
  · intro h
    obtain ⟨rfl, fd, hmain⟩ := h
    simp [State.storesInto, hmain]

theorem createsFor_eq_some {e : Event} {fd : Int} :
    s.createsFor e = some fd ↔ e = .main ∧ s.main = .create fd := by
  constructor
  · intro h
    simp only [State.createsFor] at h
    split at h
    · rename_i hmain
      exact ⟨rfl, Option.some.inj h ▸ hmain⟩
    · cases h
  · intro h
    obtain ⟨rfl, hmain⟩ := h
    simp [State.createsFor, hmain]

theorem Owned.start : Owned start where
  defined := by simp [Socket.start]
  own := by simp [Socket.start]
  distinct := by simp [Socket.start]
  isOpen := by simp [Socket.start]
  inHand := by simp [Socket.start, MainPc.inHand]

theorem descriptor_congr (htable : t.client_sockets = s.client_sockets) (h : Handler) :
    t.descriptor h = s.descriptor h := by
  rw [State.descriptor, State.descriptor, htable]

theorem Owned.goto (hs : Owned s) (htable : t.client_sockets = s.client_sockets)
    (hhandlers : t.handlers = s.handlers) (hopen : t.isOpen = s.isOpen)
    (hdefined : t.main ≠ .undefined)
    (hhand : ∀ fd, t.main.inHand = some fd → s.main.inHand = some fd) : Owned t where
  defined := hdefined
  own := by
    intro k h hk
    rw [descriptor_congr htable]
    exact hs.own k h (hhandlers ▸ hk)
  distinct := by
    rw [hhandlers]
    exact hs.distinct
  isOpen := by
    rw [hhandlers, hopen]
    exact hs.isOpen
  inHand := by
    intro fd hfd
    rw [hhandlers, hopen]
    exact hs.inHand fd (hhand fd hfd)

theorem Owned.handler (hs : Owned s) (found : s.handlers[k]? = some h) (hlive : h.pc ≠ .ended)
    {u : Handler} (hmain : t.main = s.main) (htable : t.client_sockets = s.client_sockets)
    (hhandlers : t.handlers = s.handlers.set k u) (haccepted : u.accepted = h.accepted)
    (hdescriptor : s.descriptor u = s.descriptor h)
    (hopen : ∀ fd, s.isOpen fd = true → fd ≠ h.accepted ∨ u.pc ≠ .ended → t.isOpen fd = true) :
    Owned t := by
  have horigin : ∀ j x, t.handlers[j]? = some x → ∃ y, s.handlers[j]? = some y ∧
      x.accepted = y.accepted ∧ t.descriptor x = s.descriptor y ∧
      (x.pc ≠ .ended → y.pc ≠ .ended ∧ (j ≠ k ∨ u.pc ≠ .ended)) := by
    intro j x hx
    rw [hhandlers] at hx
    rw [descriptor_congr htable]
    cases (getElem?_set_iff found).mp hx with
    | inl hj =>
        obtain ⟨rfl, rfl⟩ := hj
        exact ⟨h, found, haccepted, hdescriptor, fun hx => ⟨hlive, .inr hx⟩⟩
    | inr hj => exact ⟨x, hj.2, rfl, rfl, fun hx => ⟨hx, .inl hj.1⟩⟩
  refine ⟨⟨hmain ▸ hs.defined, ?_, ?_⟩, ?_, ?_⟩
  · intro j x hx
    obtain ⟨y, hy, haccepted, hdescriptor, -⟩ := horigin j x hx
    rw [haccepted, hdescriptor]
    exact hs.own j y hy
  · intro i j x y hx hy hij hlx hly
    obtain ⟨x', hx', hxa, -, hxl⟩ := horigin i x hx
    obtain ⟨y', hy', hya, -, hyl⟩ := horigin j y hy
    rw [hxa, hya]
    exact hs.distinct i j x' y' hx' hy' hij (hxl hlx).1 (hyl hly).1
  · intro j x hx hlx
    obtain ⟨y, hy, haccepted, -, hly⟩ := horigin j x hx
    obtain ⟨hly, hk⟩ := hly hlx
    rw [haccepted]
    refine hopen _ (hs.isOpen j y hy hly) ?_
    cases hk with
    | inl hj => exact .inl (hs.distinct j k y h hy found hj hly hlive)
    | inr hu => exact .inr hu
  · intro fd hfd hnonneg
    rw [hmain] at hfd
    obtain ⟨hfdOpen, hnobody⟩ := hs.inHand fd hfd hnonneg
    refine ⟨hopen fd hfdOpen (.inl (hnobody k h found hlive).symm), fun j x hx hlx => ?_⟩
    obtain ⟨y, hy, haccepted, -, hly⟩ := horigin j x hx
    rw [haccepted]
    exact hnobody j y hy (hly hlx).1

theorem Owned.accept (hs : Owned s) {index : Option (Fin maxClients)} {fd : Int}
    (fresh : Fresh s fd) :
    Owned { s with
      main := .assign index (some fd)
      isOpen := if 0 ≤ fd then Function.update s.isOpen fd true else s.isOpen } := by
  have hkept : ∀ x, s.isOpen x = true →
      (if 0 ≤ fd then Function.update s.isOpen fd true else s.isOpen) x = true := by
    intro x hx
    by_cases hfd : 0 ≤ fd
    · by_cases hxfd : x = fd
      · simp [hfd, hxfd]
      · simp [hfd, hxfd, hx]
    · simp [hfd, hx]
  refine ⟨⟨by simp, hs.own, hs.distinct⟩, ?_, ?_⟩
  · intro k h hk hlive
    exact hkept _ (hs.isOpen k h hk hlive)
  · intro x hx hnonneg
    cases hx
    refine ⟨by simp [hnonneg], fun k h hk hlive heq => ?_⟩
    have hopen := hs.isOpen k h hk hlive
    cases fresh with
    | inl hminus => omega
    | inr hclosed => simp [heq, hclosed.2] at hopen

theorem Owned.store (hs : Owned s) {i : Fin maxClients} {fd : Int}
    (at_ : s.main = .assign (some i) (some fd))
    (hpending : ∀ h ∈ s.handlers, h.pc = .start → h.arg ≠ i) :
    Owned { s with
      client_sockets := Function.update s.client_sockets i fd, main := .test fd } := by
  refine ⟨⟨by simp, ?_, hs.distinct⟩, hs.isOpen, ?_⟩
  · intro k h hk
    obtain ⟨hnonneg, hown⟩ := hs.own k h hk
    refine ⟨hnonneg, ?_⟩
    by_cases hpc : h.pc = .start
    · have hne := hpending h (List.mem_of_getElem? hk) hpc
      simp only [State.descriptor, hpc, if_true] at hown
      simp [State.descriptor, hpc, hne, hown]
    · simp only [State.descriptor, hpc, if_false] at hown
      simp [State.descriptor, hpc, hown]
  · intro x hx
    exact hs.inHand x (by rw [at_]; exact hx)

theorem Owned.create (hs : Owned s) {i : Fin maxClients} {fd : Int}
    (at_ : s.main = .create fd) (hnonneg : 0 ≤ fd) (hslot : s.client_sockets i = fd) :
    Owned { s with
      handlers := s.handlers ++ [⟨i, fd, 0, 0, .start⟩], main := .increment none } := by
  obtain ⟨hopen, hnobody⟩ := hs.inHand fd (by simp [at_, MainPc.inHand]) hnonneg
  have horigin : ∀ j x, (s.handlers ++ [⟨i, fd, 0, 0, .start⟩])[j]? = some x →
      s.handlers[j]? = some x ∨ (j = s.handlers.length ∧ x = ⟨i, fd, 0, 0, .start⟩) := by
    intro j x hx
    by_cases hj : j < s.handlers.length
    · rw [List.getElem?_append_left hj] at hx
      exact .inl hx
    · rw [List.getElem?_append_right (by omega), List.getElem?_singleton] at hx
      split at hx
      · exact .inr ⟨by omega, (Option.some.inj hx).symm⟩
      · cases hx
  refine ⟨⟨by simp, ?_, ?_⟩, ?_, by simp [MainPc.inHand]⟩
  · intro j x hx
    cases horigin j x hx with
    | inl hold => exact hs.own j x hold
    | inr hnew =>
        obtain ⟨-, rfl⟩ := hnew
        exact ⟨hnonneg, by simp [State.descriptor, hslot]⟩
  · intro j k x y hx hy hjk hlx hly
    cases horigin j x hx with
    | inl hx =>
        cases horigin k y hy with
        | inl hy => exact hs.distinct j k x y hx hy hjk hlx hly
        | inr hnew =>
            obtain ⟨-, rfl⟩ := hnew
            exact hnobody j x hx hlx
    | inr hnewx =>
        obtain ⟨hj, rfl⟩ := hnewx
        cases horigin k y hy with
        | inl hy => exact (hnobody k y hy hly).symm
        | inr hnew => omega
  · intro j x hx hlx
    cases horigin j x hx with
    | inl hold => exact hs.isOpen j x hold hlx
    | inr hnew =>
        obtain ⟨-, rfl⟩ := hnew
        exact hopen

theorem Owned.step {e : Event} (hs : Owned s) (hc : HandsOver s e)
    (hstep : step g s e = some t) : Owned t := by
  cases step_cases hstep with
  | outOfRange at_ out => exact absurd out (hc.1 at_)
  | evaluate at_ inRange =>
      exact hs.goto rfl rfl rfl (by simp) (by simp [at_, MainPc.inHand])
  | accept at_ fresh => exact hs.accept fresh
  | store at_ => exact hs.store at_ (hc.2.1 _ (storesInto_eq_some.mpr ⟨rfl, _, at_⟩))
  | test at_ inRange =>
      refine hs.goto rfl rfl rfl ?_ ?_
      · split <;> simp
      · split <;> simp [at_, MainPc.inHand]
  | printf at_ => exact hs.goto rfl rfl rfl (by simp) (by simp [at_, MainPc.inHand])
  | create at_ inRange =>
      obtain ⟨hnonneg, hslot⟩ := hc.2.2 _ (createsFor_eq_some.mpr ⟨rfl, at_⟩)
      exact hs.create at_ hnonneg (by simpa [inRange] using hslot)
  | createFails | increment | incrementLoad | incrementStore | stop =>
      exact hs.goto rfl rfl rfl (by simp) (by simp [MainPc.inHand])
  | checkMax at_ =>
      refine hs.goto rfl rfl rfl ?_ ?_
      · split <;> simp
      · split <;> simp [MainPc.inHand]
  | start runs found at_ | answer runs found at_ | decrement runs found at_
    | decrementLoad runs found at_ | decrementStore runs found at_ =>
      exact hs.handler found (by simp [at_]) rfl rfl rfl rfl (by simp [State.descriptor, at_])
        fun _ hopen _ => hopen
  | read runs found at_ =>
      refine hs.handler found (by simp [at_]) rfl rfl rfl rfl ?_ fun _ hopen _ => hopen
      simp only [State.descriptor, at_]
      split <;> [skip; split] <;> simp
  | @close k h runs found at_ =>
      refine hs.handler found (by simp [at_]) rfl rfl rfl rfl (by simp [State.descriptor, at_]) ?_
      intro fd hopen hne
      have hown := (hs.own k h found).2
      simp only [State.descriptor, at_, reduceCtorEq, if_false] at hown
      simpa [hown, hne.resolve_right (by simp)] using hopen

/-- A descriptor that goes to the wrong place is at once one that a handler would read. -/
theorem Owned.spoils {e : Event} (hs : Owned s) (hc : ¬ HandsOver s e)
    (hstep : Socket.step g s e = some t) : ¬ EachItsOwn t := by
  intro ht
  refine hc ⟨fun hat hslot => ?_, fun i hi h hh hpc harg => ?_, fun fd hfd => ?_⟩
  · cases step_cases hstep with
    | outOfRange at_ out => exact ht.defined rfl
    | evaluate at_ inRange | test at_ inRange | create at_ inRange | createFails at_ inRange =>
        simp [hslot] at inRange
    | accept at_ | store at_ | printf at_ | increment at_ | incrementLoad at_
      | incrementStore at_ | checkMax at_ | stop at_ => simp [State.atTable, at_] at hat
    | start | read | answer | decrement | decrementLoad | decrementStore | close =>
        simp [State.atTable] at hat
  · obtain ⟨k, hk⟩ := List.mem_iff_getElem?.mp hh
    obtain ⟨rfl, fd, hmain⟩ := storesInto_eq_some.mp hi
    simp only [Socket.step, State.mainStep, hmain, Option.some.injEq] at hstep
    subst hstep
    have hafter := (ht.own k h hk).2
    simp only [State.descriptor, hpc, if_true, harg, Function.update_self] at hafter
    have hnonneg := (hs.own k h hk).1
    refine (hs.inHand fd (by simp [hmain, MainPc.inHand]) (by omega)).2 k h hk ?_ hafter.symm
    simp [hpc]
  · obtain ⟨rfl, hmain⟩ := createsFor_eq_some.mp hfd
    simp only [Socket.step, State.mainStep, hmain, State.atSlot, Option.some.injEq] at hstep
    cases hslot : slot s.client_count with
    | none =>
        simp only [hslot] at hstep
        exact absurd (hstep ▸ rfl) ht.defined
    | some i =>
        simp only [hslot] at hstep
        subst hstep
        obtain ⟨hnonneg, hafter⟩ := ht.own s.handlers.length ⟨i, fd, 0, 0, .start⟩ (by simp)
        exact ⟨hnonneg, by simpa [State.descriptor] using hafter⟩

def accepts (es : List Event) : List Int :=
  es.filterMap fun e => match e with
    | .accept fd => some fd
    | _ => none

def State.served (s : State) : List Int :=
  s.handlers.map Handler.accepted ++ s.main.inHand.toList

theorem map_accepted_set (found : s.handlers[k]? = some h) {u : Handler}
    (haccepted : u.accepted = h.accepted) :
    (s.handlers.set k u).map Handler.accepted = s.handlers.map Handler.accepted := by
  obtain ⟨hk, rfl⟩ := List.getElem?_eq_some_iff.mp found
  rw [List.map_set, haccepted, ← List.getElem_map Handler.accepted (h := by simpa using hk)]
  exact List.set_getElem_self _

theorem step_served {e : Event} (hstep : Socket.step g s e = some t) (runs : t.Running) :
    s.Running ∧ t.served = s.served ++ accepts [e] := by
  cases step_cases hstep with
  | outOfRange at_ out => exact absurd rfl runs.2
  | evaluate at_ inRange => simp [State.Running, State.served, at_, MainPc.inHand, accepts]
  | accept at_ fresh => simp [State.Running, State.served, at_, MainPc.inHand, accepts]
  | store at_ => simp [State.Running, State.served, at_, MainPc.inHand, accepts]
  | test at_ inRange =>
      split at runs
      · exact absurd rfl runs.1
      · rename_i hnonneg
        simp [State.Running, State.served, at_, hnonneg, MainPc.inHand, accepts]
  | printf at_ => simp [State.Running, State.served, at_, MainPc.inHand, accepts]
  | create at_ inRange => simp [State.Running, State.served, at_, MainPc.inHand, accepts]
  | createFails at_ inRange => exact absurd rfl runs.1
  | increment at_ | incrementLoad at_ | incrementStore at_ =>
      simp [State.Running, State.served, at_, MainPc.inHand, accepts]
  | checkMax at_ =>
      by_cases hmax : (maxClients : Int) ≤ s.client_count
      · simp [State.Running, State.served, at_, hmax, MainPc.inHand, accepts]
      · simp [State.Running, State.served, at_, hmax, MainPc.inHand, accepts]
  | stop at_ => exact absurd rfl runs.1
  | start _ found | read _ found | answer _ found | decrement _ found | decrementLoad _ found
    | decrementStore _ found | close _ found =>
      refine ⟨runs, ?_⟩
      simp only [State.served, accepts, List.filterMap_cons_none, List.filterMap_nil,
        List.append_nil]
      exact congrArg (· ++ _) (map_accepted_set found rfl)

theorem run_served {es : List Event} (hrun : run (Socket.step g) s es = some t)
    (runs : t.Running) : s.Running ∧ t.served = s.served ++ accepts es := by
  induction es generalizing s with
  | nil =>
      cases hrun
      exact ⟨runs, (List.append_nil _).symm⟩
  | cons e es ih =>
      obtain ⟨m, hm, ht⟩ := run_cons.mp hrun
      obtain ⟨hmruns, hrest⟩ := ih ht
      obtain ⟨hsruns, hfirst⟩ := step_served hm hmruns
      refine ⟨hsruns, ?_⟩
      rw [hrest, hfirst, List.append_assoc, accepts, accepts, accepts, ← List.filterMap_append]
      rfl

/-- Each connection gets one handler, and the handlers keep to their own connections
throughout a run exactly when each step of it hands the descriptors over. -/
theorem handlers_keep_to_their_own_iff (g : Granularity) (es : List Event) (s : State)
    (h : run (step g) start es = some s) :
    (Along (step g) HandsOver start es ↔ Always (step g) EachItsOwn start es) ∧
      (s.Running → s.handlers.map Handler.accepted ++ s.main.inHand.toList = accepts es) := by
  refine ⟨?_, fun hruns => (run_served h hruns).2⟩
  exact along_iff_always (fun _ hs => hs.toEachItsOwn) (fun _ _ _ hs hc hstep => hs.step hc hstep)
    (fun _ _ _ hs hc hstep => hs.spoils hc hstep) Owned.start h

def firstConnection : List Event :=
  [.evaluate, .accept 4, .main, .main, .main, .main, .handler 0, .main, .main]

def secondConnection : List Event :=
  [.evaluate, .accept 5, .main, .main, .main, .main, .handler 1, .main, .main]

/-- Each of two handlers works on the descriptor of its own connection, and the first client
leaves while the second one is served. -/
theorem handlers_keep_to_their_own_iff_first :
    ∃ s, run (step .atomic) start (firstConnection ++ secondConnection ++
        [.read 1 3, .read 0 0, .handler 0]) = some s ∧
      s.handlers.map Handler.accepted = [4, 5] ∧
      Always (step .atomic) EachItsOwn start (firstConnection ++ secondConnection ++
        [.read 1 3, .read 0 0, .handler 0]) := by
  have hends : (run (step .atomic) start (firstConnection ++ secondConnection ++
      [.read 1 3, .read 0 0, .handler 0])).map (fun s => s.handlers.map Handler.accepted) =
      some [4, 5] := by decide +kernel
  obtain ⟨s, hs, haccepted⟩ := Option.map_eq_some_iff.mp hends
  exact ⟨s, hs, haccepted,
    (handlers_keep_to_their_own_iff .atomic _ s hs).1.mp (by decide +kernel)⟩

/-- The first client leaves between the second `accept` and the second
`pthread_create`: both handlers work on descriptor 4, and nobody on descriptor 5. -/
theorem handler_of_another_connection :
    ∃ s, run (step .atomic) start (firstConnection ++ [.evaluate, .accept 5, .main, .main, .main,
        .read 0 0, .handler 0, .main, .handler 1]) = some s ∧
      s.handlers = [⟨0, 4, 4, 0, .close⟩, ⟨0, 5, 4, 0, .read⟩] := by
  have hmap : (run (step .atomic) start (firstConnection ++ [.evaluate, .accept 5, .main, .main,
      .main, .read 0 0, .handler 0, .main, .handler 1])).map State.handlers =
        some [⟨0, 4, 4, 0, .close⟩, ⟨0, 5, 4, 0, .read⟩] := by decide +kernel
  exact Option.map_eq_some_iff.mp hmap

end LinuxTraining.Socket
