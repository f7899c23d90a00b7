import LinuxTraining.Allocator.Growth
import LinuxTraining.Allocator.PoolTiling

/-!
What `my_free` leaves of the chain. It sets the link of the block to `NULL` wherever the block
is, so that the blocks linked behind it are off the chain: a request that only they could
serve makes a new pool.
-/
namespace LinuxTraining.Allocator
open Memory Execution

/-- The chain up to the first place of `b`, with `b` itself. -/
def upTo (b : Nat) : List Nat → List Nat
  | [] => []
  | c :: chain => if c = b then [c] else c :: upTo b chain

def ServedNow (host : Host) (heap : Heap) (size : Nat) : Prop :=
  ∃ depth ptr heap', myMalloc host depth heap size = .returned (ptr, heap') ∧
    heap'.regions = heap.regions

/-- Every request that the current pool could serve before `my_free` it can serve after. -/
def KeepsServed (host : Host) (heap : Heap) (ptr : Nat) : Prop :=
  ∀ size < wordSize, ServedNow host heap size → ServedNow host (myFree heap ptr) size

/-- A pointer to a block whose link is in no other header of the chain. -/
structure OwnLink (heap : Heap) (ptr : Nat) : Prop where
  nonnull : ptr ≠ 0
  apart : ∀ c ∈ heap.chain, c ≠ sub64 ptr sizeofBlock →
    c + 16 ≤ sub64 ptr sizeofBlock + 8 ∨ sub64 ptr sizeofBlock + 16 ≤ c

/-- No block behind the one freed is larger than all up to it. -/
def NoneLargerBehind (heap : Heap) (ptr : Nat) : Prop :=
  ∀ c ∈ heap.chain, ∃ d ∈ upTo (sub64 ptr sizeofBlock) heap.chain,
    blockSize heap.mem c ≤ blockSize heap.mem d

instance (heap : Heap) (ptr : Nat) : Decidable (NoneLargerBehind heap ptr) :=
  inferInstanceAs (Decidable (∀ c ∈ heap.chain, ∃ d ∈ upTo (sub64 ptr sizeofBlock) heap.chain,
    blockSize heap.mem c ≤ blockSize heap.mem d))

variable {heap heap' next : Heap} {host : Host} {mem : Bytes} {b c ptr size : Nat}
  {chain : List Nat}

theorem upTo_subset (h : c ∈ upTo b chain) : c ∈ chain := by
  induction chain with
  | nil => exact absurd h List.not_mem_nil
  | cons first chain ih =>
      by_cases hfirst : first = b
      · rw [upTo, if_pos hfirst, List.mem_singleton] at h
        rw [h]
        exact List.mem_cons_self
      · rw [upTo, if_neg hfirst] at h
        cases List.mem_cons.mp h with
        | inl hsame =>
            rw [hsame]
            exact List.mem_cons_self
        | inr hrest => exact List.mem_cons_of_mem _ (ih hrest)

theorem upTo_off (h : b ∉ chain) : upTo b chain = chain := by
  induction chain with
  | nil => rfl
  | cons first chain ih =>
      have hne : first ≠ b := fun hsame => h (by
        rw [hsame]
        exact List.mem_cons_self)
      rw [upTo, if_neg hne, ih fun hmem => h (List.mem_cons_of_mem _ hmem)]

theorem upTo_append {before after : List Nat} (h : b ∉ before) :
    upTo b (before ++ b :: after) = before ++ [b] := by
  induction before with
  | nil => rw [List.nil_append, List.nil_append, upTo, if_pos rfl]
  | cons first before ih =>
      have hne : first ≠ b := fun hsame => h (by
        rw [hsame]
        exact List.mem_cons_self)
      rw [List.cons_append, upTo, if_neg hne, ih fun hmem => h (List.mem_cons_of_mem _ hmem),
        List.cons_append]

/-- In a chain without repetitions all that is behind `b` is left out. -/
theorem upTo_keeps_iff (h : chain.Nodup) :
    (∀ c ∈ chain, c ∈ upTo b chain) ↔ b ∉ chain ∨ chain.getLast? = some b := by
  by_cases hb : b ∈ chain
  · obtain ⟨before, after, rfl⟩ := List.append_of_mem hb
    obtain ⟨-, hrest, hdisjoint⟩ := List.nodup_append.mp h
    have hbefore : b ∉ before := fun hmem => hdisjoint b hmem b List.mem_cons_self rfl
    rw [upTo_append hbefore]
    cases after with
    | nil =>
        refine ⟨fun _ => .inr ?_, fun _ c hc => hc⟩
        rw [List.getLast?_append, List.getLast?_singleton, Option.some_or]
    | cons second after =>
        have hsecond : second ∉ before ++ [b] := fun hmem => by
          cases List.mem_append.mp hmem with
          | inl hfirst => exact hdisjoint second hfirst second (by simp) rfl
          | inr hsame =>
              rw [List.mem_singleton.mp hsame] at hrest
              exact (List.nodup_cons.mp hrest).1 List.mem_cons_self
        refine ⟨fun hall => absurd (hall second (by simp)) hsecond, fun hlast => ?_⟩
        have hlast' := hlast.resolve_left (absurd hb)
        rw [List.getLast?_append, List.getLast?_cons_cons, List.getLast?_cons,
          Option.some_or, ← List.getLast?_cons] at hlast'
        exact absurd (List.mem_of_getLast? hlast') (List.nodup_cons.mp hrest).1
  · rw [upTo_off hb]
    exact ⟨fun _ => .inl hb, fun _ c hc => hc⟩

theorem chainFrom_null (turns : Nat) : chainFrom mem turns 0 = [] := by
  cases turns with
  | zero => rfl
  | succ turns => rw [chainFrom, if_pos rfl]

theorem chainFrom_unlinked {turns block : Nat}
    (hapart : ∀ c ∈ chainFrom mem turns block, c ≠ b → c + 16 ≤ b + 8 ∨ b + 16 ≤ c) :
    chainFrom (setNext mem b 0) turns block = upTo b (chainFrom mem turns block) := by
  induction turns generalizing block with
  | zero => rfl
  | succ turns ih =>
      by_cases hnull : block = 0
      · rw [hnull, chainFrom_null, chainFrom_null, upTo]
      · rw [chainFrom, if_neg hnull] at hapart ⊢
        rw [chainFrom, if_neg hnull]
        by_cases hblock : block = b
        · rw [upTo, if_pos hblock, hblock, blockNext_setNext (by decide), chainFrom_null]
        · have hlink : blockNext (setNext mem b 0) block = blockNext mem block :=
            load64_store64_frame (by
              have := hapart block List.mem_cons_self hblock
              omega)
          rw [upTo, if_neg hblock, hlink,
            ih fun c hc => hapart c (List.mem_cons_of_mem _ hc)]

theorem OwnLink.chain_after (h : OwnLink heap ptr) :
    (myFree heap ptr).chain = upTo (sub64 ptr sizeofBlock) heap.chain := by
  rw [myFree, if_neg h.nonnull]
  exact chainFrom_unlinked h.apart

theorem OwnLink.size_after (h : OwnLink heap ptr) (hc : c ∈ heap.chain) :
    blockSize (myFree heap ptr).mem c = blockSize heap.mem c := by
  rw [myFree, if_neg h.nonnull]
  by_cases hsame : c = sub64 ptr sizeofBlock
  · rw [hsame, blockSize_setNext]
  · exact load64_store64_frame (by
      have := h.apart c hc hsame
      omega)

theorem initialize_not_back (hinit : initializeMemoryPool host heap size = some next)
    (h : next.regions <:+ heap'.regions) : heap'.regions ≠ heap.regions := by
  intro hsame
  have hlength := h.length_le
  rw [hsame, (initialize_regions hinit).1, List.length_cons] at hlength
  omega

theorem ServedNow.fits (h : ServedNow host heap size) :
    ∃ c ∈ heap.chain, size ≤ blockSize heap.mem c := by
  obtain ⟨depth, ptr, heap', hcall, hsame⟩ := h
  cases depth with
  | zero => cases hcall
  | succ depth =>
      simp only [myMalloc] at hcall
      split at hcall
      · split at hcall
        · cases hcall
        · rename_i start hinit
          have hregions := allocate_regions (fun grown => myMalloc_regions) hcall
          exact absurd hsame (initialize_not_back hinit hregions)
      · simp only [allocate] at hcall
        split at hcall
        · rename_i c hsearch
          have hfirst := (search_found_iff _ _ _ _ _ _).mp hsearch
          exact ⟨c, firstFit_some hfirst⟩
        · cases hcall
        · split at hcall
          · cases hcall
          · rename_i grown hinit
            exact absurd hsame (initialize_not_back hinit (myMalloc_regions hcall))

theorem servedNow_iff :
    ServedNow host heap size ↔ ∃ c ∈ heap.chain, size ≤ blockSize heap.mem c := by
  refine ⟨ServedNow.fits, fun hfits => ?_⟩
  obtain ⟨first, hfirst⟩ := firstFit_exists hfits
  have hsearch := (search_found_iff heap.mem size wordSize heap.memoryPool 0 first).mpr hfirst
  refine ⟨1, add64 first sizeofBlock, serve heap first size, ?_, serve_regions _ _⟩
  simp only [myMalloc, firstFit_pool hfirst, if_false, allocate, hsearch]

theorem OwnLink.keepsServed_iff (h : OwnLink heap ptr) :
    KeepsServed host heap ptr ↔ NoneLargerBehind heap ptr := by
  constructor
  · intro hkeeps c hc
    have hserved : ServedNow host heap (blockSize heap.mem c) :=
      servedNow_iff.mpr ⟨c, hc, Nat.le_refl _⟩
    obtain ⟨d, hd, hfits⟩ := (hkeeps _ (load64_lt _ _) hserved).fits
    rw [h.chain_after] at hd
    rw [h.size_after (upTo_subset hd)] at hfits
    exact ⟨d, hd, hfits⟩
  · intro hnone size _ hserved
    obtain ⟨c, hc, hfits⟩ := hserved.fits
    obtain ⟨d, hd, hlarger⟩ := hnone c hc
    refine servedNow_iff.mpr ⟨d, ?_, ?_⟩
    · rw [h.chain_after]
      exact hd
    · rw [h.size_after (upTo_subset hd)]
      exact Nat.le_trans hfits hlarger

theorem realloc_regions {depth newPtr : Nat}
    (hcall : myRealloc host depth heap ptr size = .returned (newPtr, heap')) :
    heap.regions <:+ heap'.regions := by
  by_cases hnull : ptr = 0
  · simp only [myRealloc, hnull, if_true] at hcall
    exact myMalloc_regions hcall
  · by_cases hsize : size = 0
    · simp only [myRealloc, hnull, if_false, hsize, if_true, Outcome.returned.injEq,
        Prod.mk.injEq] at hcall
      simp only [← hcall.2, myFree_regions, List.suffix_refl]
    · obtain ⟨middle, hinner, hsame⟩ := myRealloc_pools hnull hsize hcall
      rw [hsame]
      exact myMalloc_regions hinner

theorem step_regions {s t : Client} {event : Event} (hrun : step host s event = some t) :
    s.heap.regions <:+ t.heap.regions := by
  cases event with
  | malloc size depth =>
      obtain ⟨ptr, heap, hcall, rfl⟩ := step_malloc hrun
      exact myMalloc_regions hcall
  | free ptr =>
      simp only [step, Option.some.injEq] at hrun
      simp only [← hrun, myFree_regions, List.suffix_refl]
  | realloc ptr size depth =>
      obtain ⟨newPtr, heap, hcall, rfl⟩ := step_realloc hrun
      split
      · exact realloc_regions hcall
      · exact realloc_regions hcall
  | write addr byte =>
      simp only [step, Option.some.injEq] at hrun
      simp only [← hrun, List.suffix_refl]

def RoomInAll (s : Client) : Prop := ∀ r ∈ s.heap.regions, sizeofBlock ≤ r.2

instance (s : Client) : Decidable (RoomInAll s) :=
  inferInstanceAs (Decidable (∀ r ∈ s.heap.regions, sizeofBlock ≤ r.2))

theorem RoomInAll.before (s : Client) (event : Event) (t : Client)
    (hrun : step host s event = some t) (h : RoomInAll t) : RoomInAll s :=
  fun r hr => h r ((step_regions hrun).subset hr)

theorem grows_of_room (hostOk : HostOk host) {s t : Client} {event : Event} (h : Pooled s)
    (hroom : RoomInAll t) (hrun : step host s event = some t) : Grows s event := by
  cases event with
  | malloc size depth =>
      obtain ⟨ptr, heap, hcall, rfl⟩ := step_malloc hrun
      exact growsEnough_of_room hostOk h.roomy.wf hcall hroom
  | free ptr => trivial
  | realloc ptr size depth =>
      intro hasks
      obtain ⟨newPtr, heap, hcall, rfl⟩ := step_realloc hrun
      have hroom' : ∀ r ∈ heap.regions, sizeofBlock ≤ r.2 := by
        simp only [RoomInAll] at hroom
        split at hroom
        · exact hroom
        · exact hroom
      by_cases hnull : ptr = 0
      · simp only [myRealloc, hnull, if_true] at hcall
        exact growsEnough_of_room hostOk h.roomy.wf hcall hroom'
      · obtain ⟨middle, hinner, hsame⟩ :=
          myRealloc_pools hnull (hasks.resolve_left hnull) hcall
        rw [hsame] at hroom'
        exact growsEnough_of_room hostOk h.roomy.wf hinner hroom'
  | write addr byte => trivial

theorem pooled_of_room (hostOk : HostOk host) {events : List Event} {s : Client}
    (passes : Along (step host) PassesReturned (initial mem) events)
    (h : run (step host) (initial mem) events = some s) (hroom : RoomInAll s) : Pooled s :=
  invariant_before RoomInAll.before
    (fun s event t hs hpasses ht hrun =>
      hs.step hostOk s event t ⟨hpasses, grows_of_room hostOk hs ht hrun⟩ hrun)
    (Pooled.initial mem) passes h hroom

theorem live_returned {events : List Event} {s : Client}
    (h : run (step host) (initial mem) events = some s) :
    ∀ e ∈ s.live, e.1 ∈ s.returned := by
  refine invariant_run (I := fun s : Client => ∀ e ∈ s.live, e.1 ∈ s.returned) ?_ ?_ h
  · intro s event t hs hrun
    cases event with
    | malloc size depth =>
        obtain ⟨ptr, heap, -, rfl⟩ := step_malloc hrun
        intro e he
        cases List.mem_cons.mp he with
        | inl hnew =>
            rw [hnew]
            exact List.mem_cons_self
        | inr hold => exact List.mem_cons_of_mem _ (hs e hold)
    | free ptr =>
        simp only [step, Option.some.injEq] at hrun
        rw [← hrun]
        exact fun e he => hs e (mem_release he)
    | realloc ptr size depth =>
        obtain ⟨newPtr, heap, -, rfl⟩ := step_realloc hrun
        split
        · exact fun e he => hs e (mem_release he)
        · intro e he
          cases List.mem_cons.mp he with
          | inl hnew =>
              rw [hnew]
              exact List.mem_cons_self
          | inr hold => exact List.mem_cons_of_mem _ (hs e (mem_release hold))
    | write addr byte =>
        simp only [step, Option.some.injEq] at hrun
        rw [← hrun]
        exact hs
  · intro e he
    exact absurd he List.not_mem_nil

/-- The links of a well-formed chain go upwards. -/
theorem WellFormed.chain_ascends (h : WellFormed heap) {turns block : Nat}
    (hblock : block = 0 ∨ block ∈ heap.headers) :
    (chainFrom heap.mem turns block).Pairwise (· < ·) ∧
      ∀ c ∈ chainFrom heap.mem turns block, block ≤ c := by
  induction turns generalizing block with
  | zero => exact ⟨.nil, fun c hc => absurd hc List.not_mem_nil⟩
  | succ turns ih =>
      by_cases hnull : block = 0
      · rw [hnull]
        exact ⟨by rw [chainFrom_null]; exact .nil, fun c _ => Nat.zero_le c⟩
      · rw [chainFrom, if_neg hnull]
        have hmem := hblock.resolve_left hnull
        have hlink := h.next block hmem
        obtain ⟨hascends, hlow⟩ := ih (hlink.imp_right fun hl => by
          rw [hl.1]
          exact hl.2)
        have hext := extent_ge heap.mem block
        have habove : ∀ c ∈ chainFrom heap.mem turns (blockNext heap.mem block), block < c := by
          intro c hc
          have hnext := hlow c hc
          cases hlink with
          | inl hend =>
              rw [hend, chainFrom_null] at hc
              exact absurd hc List.not_mem_nil
          | inr hl => omega
        refine ⟨List.pairwise_cons.mpr ⟨habove, hascends⟩, fun c hc => ?_⟩
        cases List.mem_cons.mp hc with
        | inl hfirst => omega
        | inr hrest => exact Nat.le_of_lt (habove c hrest)

theorem WellFormed.chain_nodup (h : WellFormed heap) : heap.chain.Nodup :=
  (h.chain_ascends h.pool).1.imp Nat.ne_of_lt

theorem WellFormed.ownLink (h : WellFormed heap) (hb : b ∈ heap.headers) :
    OwnLink heap (b + 16) := by
  refine ⟨Nat.succ_ne_zero _, fun c hc hne => ?_⟩
  rw [h.header_of hb] at hne ⊢
  have hapart := h.apart (h.chain_headers c hc) hb hne
  omega

/-- In every state a freed block leaves the requests that the current pool serves as they are
exactly when no block behind it is larger than all up to it, if its link is its own. So it is
in a run that passes returned pointers, writes to no header and makes no pool without room for
one, and there no block is lost just when the freed one is off the chain or the last. -/
theorem freed_keeps_served_iff (host : Host) (mem : Bytes) (events : List Event) (s : Client)
    (h : run (step host) (initial mem) events = some s) :
    ∀ e ∈ s.live,
      (OwnLink s.heap e.1 → (KeepsServed host s.heap e.1 ↔ NoneLargerBehind s.heap e.1)) ∧
      (HostOk host → Along (step host) PassesReturned (initial mem) events → RoomInAll s →
        OwnLink s.heap e.1 ∧
        ((∀ c ∈ s.heap.chain, c ∈ (myFree s.heap e.1).chain) ↔
          sub64 e.1 sizeofBlock ∉ s.heap.chain ∨
            s.heap.chain.getLast? = some (sub64 e.1 sizeofBlock))) := by
  intro e he
  refine ⟨OwnLink.keepsServed_iff, fun hostOk passes hroom => ?_⟩
  have hpooled := pooled_of_room hostOk passes h hroom
  obtain ⟨b, hb, hptr⟩ := hpooled.returned e.1 (live_returned h e he)
  have hown := hpooled.roomy.wf.ownLink hb
  rw [← hptr] at hown
  refine ⟨hown, ?_⟩
  rw [hown.chain_after]
  exact upTo_keeps_iff hpooled.roomy.wf.chain_nodup

/-- The rest of the pool is asked for as well, and is freed. -/
theorem freed_keeps_served_iff_rest :
    ∃ s, run (step onePoolHost) (initial zeroBytes) [.malloc 16 1, .malloc 4048 1] = some s ∧
      KeepsServed onePoolHost s.heap 8240 := by
  have hrun : (run (step onePoolHost) (initial zeroBytes) [.malloc 16 1, .malloc 4048 1]).map
      (fun s => (s.live, decide (RoomInAll s), decide (NoneLargerBehind s.heap 8240))) =
      some ([(8240, 4048), (8208, 16)], true, true) := by
    decide +kernel
  obtain ⟨s, hs, hfacts⟩ := Option.map_eq_some_iff.mp hrun
  obtain ⟨hlive, hrest⟩ := Prod.mk.inj hfacts
  obtain ⟨hroom, hnone⟩ := Prod.mk.inj hrest
  obtain ⟨hiff, hruns⟩ := freed_keeps_served_iff onePoolHost zeroBytes _ s hs (8240, 4048) (by
    rw [hlive]
    exact List.mem_cons_self)
  have hown := (hruns onePoolHost_ok (by decide +kernel) (of_decide_eq_true hroom)).1
  exact ⟨s, hs, (hiff hown).mpr (of_decide_eq_true hnone)⟩

/-- The first of two blocks is freed: the 4048 bytes behind it are lost. -/
theorem freed_loses_rest :
    ¬ ∀ (host : Host), HostOk host → ∀ (mem : Bytes) (events : List Event) (s : Client),
      Along (step host) Obeys (initial mem) events →
      Along (step host) Unshared (initial mem) events →
      run (step host) (initial mem) events = some s →
      ∀ e ∈ s.live, KeepsServed host s.heap e.1 := by
  intro hall
  have hrun : (run (step onePoolHost) (initial zeroBytes) [.malloc 16 1]).map (fun s : Client =>
      (s.live, decide (∃ c ∈ s.heap.chain, 17 ≤ blockSize s.heap.mem c),
        decide (∃ c ∈ (myFree s.heap 8208).chain,
          17 ≤ blockSize (myFree s.heap 8208).mem c))) = some ([(8208, 16)], true, false) := by
    decide +kernel
  obtain ⟨s, hs, hfacts⟩ := Option.map_eq_some_iff.mp hrun
  obtain ⟨hlive, hrest⟩ := Prod.mk.inj hfacts
  obtain ⟨hbefore, hafter⟩ := Prod.mk.inj hrest
  have hkeeps := hall onePoolHost onePoolHost_ok zeroBytes _ s (by decide +kernel)
    (by decide +kernel) hs (8208, 16) (by rw [hlive]; exact List.mem_cons_self)
  have hserved : ServedNow onePoolHost s.heap 17 := servedNow_iff.mpr (of_decide_eq_true hbefore)
  exact of_decide_eq_false hafter (hkeeps 17 (by decide) hserved).fits

end LinuxTraining.Allocator
