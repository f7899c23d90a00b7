import LinuxTraining.Allocator.CurrentPool

/-!
Where a request leads that no block of the chain can serve. The new pool has twice the
size of the last block: with more than a header in that block the pools grow until the
request fits, with less they shrink until one has no room for its own header.
-/
namespace LinuxTraining.Allocator
open Memory Execution

variable {heap heap' : Heap} {host : Host} {size ptr : Nat}

def Heap.GrowsEnough (heap : Heap) (size : Nat) : Prop :=
  heap.firstFit size = none → ∀ last, heap.chain.getLast? = some last →
    sizeofBlock < blockSize heap.mem last

def InCurrentPool (heap : Heap) (ptr size : Nat) : Prop :=
  ∃ pool, heap.regions.head? = some pool ∧ pool.1 = heap.memoryPool ∧
    pool.1 + sizeofBlock ≤ ptr ∧ ptr + size ≤ pool.1 + pool.2

def Granted (host : Host) (heap : Heap) (size : Nat) : Prop :=
  ∀ depth, myMalloc host depth heap size ≠ .exited

theorem Heap.GrowsEnough.safely (h : heap.GrowsEnough size) : heap.GrowsSafely size := by
  intro hnone last hlast
  have := h hnone last hlast
  simp only [sizeofBlock] at this
  omega

theorem firstFit_single (hchain : heap.chain = [heap.memoryPool]) :
    heap.firstFit size =
      if size ≤ blockSize heap.mem heap.memoryPool then some heap.memoryPool else none := by
  rw [Heap.firstFit, hchain]
  by_cases hfits : size ≤ blockSize heap.mem heap.memoryPool
  · simp [hfits]
  · simp [hfits]

theorem growsEnough_single (hchain : heap.chain = [heap.memoryPool])
    (hlarge : sizeofBlock < blockSize heap.mem heap.memoryPool) : heap.GrowsEnough size := by
  intro _ last hlast
  rw [hchain, List.getLast?_singleton] at hlast
  rwa [← Option.some.inj hlast]

theorem Roomy.grown (hostOk : HostOk host) (h : Roomy heap) {poolSize : Nat}
    (hlarge : 32 < poolSize) (hinit : initializeMemoryPool host heap poolSize = some heap') :
    Roomy heap' ∧ heap'.memoryPool ≠ 0 ∧ heap'.GrowsEnough size := by
  obtain ⟨hroomy, hchain, hblock⟩ := h.initialize hostOk (by omega) hinit
  refine ⟨hroomy, (initialize_regions hinit).2.2, growsEnough_single hchain ?_⟩
  simp only [sizeofBlock]
  omega

theorem pooled_roomy (hostOk : HostOk host) {depth : Nat} (h : Roomy heap)
    (hpool : heap.memoryPool ≠ 0) (hgrow : heap.GrowsEnough size)
    (hcall : myMalloc host depth heap size = .returned (ptr, heap')) :
    Roomy heap' ∧ InCurrentPool heap' ptr size := by
  induction depth generalizing heap with
  | zero => cases hcall
  | succ depth ih =>
      cases search_cases h.wf hpool size with
      | inl hfound =>
          obtain ⟨c, hfirst, -⟩ := hfound
          rw [myMalloc_found h.wf hfirst, Outcome.returned.injEq, Prod.mk.injEq] at hcall
          obtain ⟨rfl, rfl⟩ := hcall
          obtain ⟨hroomy, pool, hcurrent, hlow, hhigh⟩ := h.serve hfirst
          exact ⟨hroomy, pool, hcurrent.newest, hcurrent.base, hlow, hhigh⟩
      | inr hexhausted =>
          obtain ⟨last, hnone, hlast, -⟩ := hexhausted
          have hlarge := hgrow hnone last hlast
          simp only [sizeofBlock] at hlarge
          rw [myMalloc_grows h.wf hnone hlast] at hcall
          cases hinit : initializeMemoryPool host heap (blockSize heap.mem last * 2) with
          | none =>
              rw [hinit] at hcall
              cases hcall
          | some grown =>
              rw [hinit] at hcall
              obtain ⟨hroomy, hnew, henough⟩ := h.grown hostOk (by omega) hinit
              exact ih hroomy hnew henough hcall

theorem myMalloc_roomy (hostOk : HostOk host) {depth : Nat} (h : Roomy heap)
    (hgrow : heap.GrowsEnough size)
    (hcall : myMalloc host depth heap size = .returned (ptr, heap')) :
    Roomy heap' ∧ InCurrentPool heap' ptr size := by
  by_cases hnull : heap.memoryPool = 0
  · cases depth with
    | zero => cases hcall
    | succ depth =>
        rw [myMalloc_first hnull] at hcall
        cases hinit : initializeMemoryPool host heap defaultSize with
        | none =>
            rw [hinit] at hcall
            cases hcall
        | some start =>
            rw [hinit] at hcall
            obtain ⟨hroomy, hnew, henough⟩ := h.grown hostOk (by decide) hinit
            exact pooled_roomy hostOk hroomy hnew henough hcall
  · exact pooled_roomy hostOk h hnull hgrow hcall

theorem found_ends (h : WellFormed heap) {c : Nat} (hfirst : heap.firstFit size = some c) :
    ∃ depth, myMalloc host (depth + 1) heap size ≠ .running := by
  refine ⟨0, ?_⟩
  rw [myMalloc_found h hfirst]
  simp

/-- A call that must grow the heap ends if it ends in the new pool, if there is one. -/
theorem grown_ends (h : WellFormed heap) {last : Nat} (hnone : heap.firstFit size = none)
    (hlast : heap.chain.getLast? = some last)
    (hends : ∀ grown,
      initializeMemoryPool host heap (blockSize heap.mem last * 2) = some grown →
        ∃ depth, myMalloc host (depth + 1) grown size ≠ .running) :
    ∃ depth, myMalloc host (depth + 1) heap size ≠ .running := by
  cases hinit : initializeMemoryPool host heap (blockSize heap.mem last * 2) with
  | none =>
      refine ⟨0, ?_⟩
      rw [myMalloc_grows h hnone hlast, hinit]
      simp
  | some grown =>
      obtain ⟨depth, hdepth⟩ := hends grown hinit
      refine ⟨depth + 1, ?_⟩
      rw [myMalloc_grows h hnone hlast, hinit]
      exact hdepth

theorem single_ends (hostOk : HostOk host) (turns : Nat) (h : Roomy heap)
    (hpool : heap.memoryPool ≠ 0) (hchain : heap.chain = [heap.memoryPool])
    (hlarge : 16 < blockSize heap.mem heap.memoryPool)
    (hsize : size ≤ 16 + (blockSize heap.mem heap.memoryPool - 16) * 2 ^ turns) :
    ∃ depth, myMalloc host (depth + 1) heap size ≠ .running := by
  induction turns generalizing heap with
  | zero =>
      have hfirst : heap.firstFit size = some heap.memoryPool := by
        rw [firstFit_single hchain, if_pos (by omega)]
      exact found_ends h.wf hfirst
  | succ turns ih =>
      by_cases hfits : size ≤ blockSize heap.mem heap.memoryPool
      · have hfirst : heap.firstFit size = some heap.memoryPool := by
          rw [firstFit_single hchain, if_pos hfits]
        exact found_ends h.wf hfirst
      · have hnone : heap.firstFit size = none := by
          rw [firstFit_single hchain, if_neg hfits]
        have hlast : heap.chain.getLast? = some heap.memoryPool := by
          rw [hchain, List.getLast?_singleton]
        refine grown_ends h.wf hnone hlast fun grown hinit => ?_
        obtain ⟨hroomy, hsingle, hblock⟩ := h.initialize hostOk (by omega) hinit
        have hdouble : (blockSize heap.mem heap.memoryPool - 16) * 2 ^ (turns + 1) =
            (blockSize grown.mem grown.memoryPool - 16) * 2 ^ turns := by
          have hbase : (blockSize heap.mem heap.memoryPool - 16) * 2 =
              blockSize heap.mem heap.memoryPool * 2 - 16 - 16 := by
            omega
          rw [hblock, Nat.pow_succ', ← Nat.mul_assoc, hbase]
        exact ih hroomy (initialize_regions hinit).2.2 hsingle (by omega)
          (by rw [← hdouble]; exact hsize)

theorem pooled_ends (hostOk : HostOk host) (h : Roomy heap) (hpool : heap.memoryPool ≠ 0)
    (hgrow : heap.GrowsEnough size) (hsize : size ≤ 2 ^ 62) :
    ∃ depth, myMalloc host (depth + 1) heap size ≠ .running := by
  cases search_cases h.wf hpool size with
  | inl hfound =>
      obtain ⟨c, hfirst, -⟩ := hfound
      exact found_ends h.wf hfirst
  | inr hexhausted =>
      obtain ⟨last, hnone, hlast, -⟩ := hexhausted
      have hlarge := hgrow hnone last hlast
      simp only [sizeofBlock] at hlarge
      refine grown_ends h.wf hnone hlast fun grown hinit => ?_
      obtain ⟨hroomy, hchain, hblock⟩ := h.initialize hostOk (by omega) hinit
      have hreach : size ≤ 16 + (blockSize grown.mem grown.memoryPool - 16) * 2 ^ 62 := by
        omega
      exact single_ends hostOk 62 hroomy (initialize_regions hinit).2.2 hchain (by omega) hreach

theorem myMalloc_ends (hostOk : HostOk host) (h : Roomy heap) (hgrow : heap.GrowsEnough size)
    (hsize : size ≤ 2 ^ 62) : ∃ depth, myMalloc host depth heap size ≠ .running := by
  by_cases hnull : heap.memoryPool = 0
  · cases hinit : initializeMemoryPool host heap defaultSize with
    | none =>
        refine ⟨1, ?_⟩
        rw [myMalloc_first hnull, hinit]
        simp
    | some start =>
        obtain ⟨hroomy, hnew, henough⟩ := h.grown hostOk (by decide) hinit
        obtain ⟨depth, hends⟩ := pooled_ends hostOk hroomy hnew henough hsize
        refine ⟨depth + 1, ?_⟩
        rw [myMalloc_first hnull, hinit]
        exact hends
  · obtain ⟨depth, hends⟩ := pooled_ends hostOk h hnull hgrow hsize
    exact ⟨depth + 1, hends⟩

theorem allocate_more {retry more : Heap → Outcome (Nat × Heap)}
    (hmore : ∀ grown, retry grown ≠ .running → more grown = retry grown)
    (hends : allocate host retry heap size ≠ .running) :
    allocate host more heap size = allocate host retry heap size := by
  simp only [allocate] at hends ⊢
  split
  · rfl
  · rfl
  · rename_i hsearch
    simp only [hsearch] at hends
    split
    · rfl
    · rename_i grown hinit
      simp only [hinit] at hends
      exact hmore grown hends

/-- A call that has ended does not change when it may go deeper. -/
theorem myMalloc_more {depth : Nat} (hends : myMalloc host depth heap size ≠ .running)
    (deeper : Nat) :
    myMalloc host (depth + deeper) heap size = myMalloc host depth heap size := by
  induction depth generalizing heap with
  | zero => exact absurd rfl hends
  | succ depth ih =>
      rw [Nat.add_right_comm]
      simp only [myMalloc] at hends ⊢
      split
      · rename_i hnull
        simp only [hnull, if_true] at hends
        split
        · rfl
        · rename_i start hinit
          simp only [hinit] at hends
          exact allocate_more (fun grown => ih) hends
      · rename_i hpool
        simp only [hpool, if_false] at hends
        exact allocate_more (fun grown => ih) hends

theorem granted_of_returned {depth : Nat} {result : Nat × Heap}
    (hcall : myMalloc host depth heap size = .returned result) : Granted host heap size := by
  intro d hexited
  have hreturned := myMalloc_more (by rw [hcall]; simp) d
  have hstays := myMalloc_more (by rw [hexited]; simp) depth
  rw [Nat.add_comm, hstays, hexited, hcall] at hreturned
  cases hreturned

theorem allocate_regions {retry : Heap → Outcome (Nat × Heap)}
    (hretry : ∀ grown, retry grown = .returned (ptr, heap') → grown.regions <:+ heap'.regions)
    (hcall : allocate host retry heap size = .returned (ptr, heap')) :
    heap.regions <:+ heap'.regions := by
  simp only [allocate] at hcall
  split at hcall
  · obtain ⟨-, rfl⟩ := Prod.mk.inj (Outcome.returned.inj hcall)
    simp only [serve_regions, List.suffix_refl]
  · cases hcall
  · split at hcall
    · cases hcall
    · rename_i grown hinit
      have hgrown := hretry grown hcall
      rw [(initialize_regions hinit).1] at hgrown
      exact (List.suffix_cons _ _).trans hgrown

/-- What the host has returned stays with the heap. -/
theorem myMalloc_regions {depth : Nat}
    (hcall : myMalloc host depth heap size = .returned (ptr, heap')) :
    heap.regions <:+ heap'.regions := by
  induction depth generalizing heap with
  | zero => cases hcall
  | succ depth ih =>
      simp only [myMalloc] at hcall
      split at hcall
      · split at hcall
        · cases hcall
        · rename_i start hinit
          have hstart := allocate_regions (fun grown => ih) hcall
          rw [(initialize_regions hinit).1] at hstart
          exact (List.suffix_cons _ _).trans hstart
      · exact allocate_regions (fun grown => ih) hcall

/-- A last block of at most 16 bytes leads to a pool without room for its header, if the
call comes back at all. -/
theorem small_pool (hostOk : HostOk host) {depth last : Nat} (h : WellFormed heap)
    (hnone : heap.firstFit size = none) (hlast : heap.chain.getLast? = some last)
    (hsmall : blockSize heap.mem last ≤ 16)
    (hcall : myMalloc host depth heap size = .returned (ptr, heap')) :
    ∃ r ∈ heap'.regions, r.2 < sizeofBlock := by
  induction depth generalizing heap last with
  | zero => cases hcall
  | succ depth ih =>
      rw [myMalloc_grows h hnone hlast] at hcall
      cases hinit : initializeMemoryPool host heap (blockSize heap.mem last * 2) with
      | none =>
          rw [hinit] at hcall
          cases hcall
      | some grown =>
          rw [hinit] at hcall
          obtain ⟨hregions, -, hnull⟩ := initialize_regions hinit
          by_cases hroom : 16 ≤ blockSize heap.mem last * 2
          · obtain ⟨hwf, -, -, hblock, hnext, -⟩ := initialize_spec hostOk h hroom hinit
            have hchain := chain_single hnull hnext
            have hunfit : blockSize heap.mem last < size := by
              have hall := List.find?_eq_none.mp hnone last (List.mem_of_getLast? hlast)
              simpa using hall
            have hnone' : grown.firstFit size = none := by
              rw [firstFit_single hchain, if_neg (by omega)]
            exact ih hwf hnone' (by rw [hchain, List.getLast?_singleton]) (by omega) hcall
          · refine ⟨(grown.memoryPool, blockSize heap.mem last * 2), ?_, ?_⟩
            · refine (myMalloc_regions hcall).subset ?_
              rw [hregions]
              exact List.mem_cons_self
            · simp only [sizeofBlock]
              omega

theorem growsEnough_of_room (hostOk : HostOk host) {depth : Nat} (h : WellFormed heap)
    (hcall : myMalloc host depth heap size = .returned (ptr, heap'))
    (hroom : ∀ r ∈ heap'.regions, sizeofBlock ≤ r.2) : heap.GrowsEnough size := by
  intro hnone last hlast
  by_cases hsmall : blockSize heap.mem last ≤ 16
  · obtain ⟨r, hr, hless⟩ := small_pool hostOk h hnone hlast hsmall hcall
    exact absurd (hroom r hr) (Nat.not_le.mpr hless)
  · exact Nat.not_le.mp hsmall

/-- For a heap whose pools have room for their headers. -/
theorem served_in_pool_iff (hostOk : HostOk host) (h : Roomy heap) (hsize : size ≤ 2 ^ 62) :
    (∃ depth ptr heap', myMalloc host depth heap size = .returned (ptr, heap') ∧
      InCurrentPool heap' ptr size ∧ ∀ r ∈ heap'.regions, sizeofBlock ≤ r.2) ↔
    Granted host heap size ∧ heap.GrowsEnough size := by
  constructor
  · intro hserved
    obtain ⟨depth, ptr, heap', hcall, -, hroom⟩ := hserved
    exact ⟨granted_of_returned hcall, growsEnough_of_room hostOk h.wf hcall hroom⟩
  · intro hmeets
    obtain ⟨hgranted, hgrow⟩ := hmeets
    obtain ⟨depth, hends⟩ := myMalloc_ends hostOk h hgrow hsize
    cases hcall : myMalloc host depth heap size with
    | running => exact absurd hcall hends
    | exited => exact absurd hcall (hgranted depth)
    | returned result =>
        obtain ⟨hroomy, hin⟩ := myMalloc_roomy hostOk h hgrow hcall
        exact ⟨depth, result.1, result.2, hcall, hin, hroomy.room⟩

/-- `NULL` or a pointer that a call has returned is freed or reallocated, and no header is
written to. -/
def PassesReturned (s : Client) : Event → Prop
  | .malloc _ _ => True
  | .free ptr => ptr = 0 ∨ ptr ∈ s.returned
  | .realloc ptr _ _ => ptr = 0 ∨ ptr ∈ s.returned
  | .write addr _ => ∀ a ∈ s.heap.headers, addr < a ∨ a + sizeofBlock ≤ addr

def Grows (s : Client) : Event → Prop
  | .malloc size _ => s.heap.GrowsEnough size
  | .realloc ptr size _ => ptr = 0 ∨ size ≠ 0 → s.heap.GrowsEnough size
  | .free _ | .write _ _ => True

instance (heap : Heap) (size : Nat) : Decidable (heap.GrowsEnough size) :=
  match hlast : heap.chain.getLast? with
  | none => isTrue fun _ last h => by rw [hlast] at h; cases h
  | some last =>
      decidable_of_iff (heap.firstFit size = none → sizeofBlock < blockSize heap.mem last)
        (by simp [Heap.GrowsEnough, hlast])

instance (s : Client) : (event : Event) → Decidable (PassesReturned s event)
  | .malloc _ _ => isTrue trivial
  | .free ptr => inferInstanceAs (Decidable (ptr = 0 ∨ ptr ∈ s.returned))
  | .realloc ptr _ _ => inferInstanceAs (Decidable (ptr = 0 ∨ ptr ∈ s.returned))
  | .write addr _ =>
      inferInstanceAs (Decidable (∀ a ∈ s.heap.headers, addr < a ∨ a + sizeofBlock ≤ addr))

instance (s : Client) : (event : Event) → Decidable (Grows s event)
  | .malloc size _ => inferInstanceAs (Decidable (s.heap.GrowsEnough size))
  | .realloc ptr size _ =>
      inferInstanceAs (Decidable (ptr = 0 ∨ size ≠ 0 → s.heap.GrowsEnough size))
  | .free _ => isTrue trivial
  | .write _ _ => isTrue trivial

structure Pooled (s : Client) : Prop where
  roomy : Roomy s.heap
  returned : ∀ ptr ∈ s.returned, ∃ a ∈ s.heap.headers, ptr = a + 16

theorem Pooled.initial (mem : Bytes) : Pooled (initial mem) where
  roomy := Roomy.empty mem
  returned := by simp [Allocator.initial]

theorem Pooled.serve (hostOk : HostOk host) {s : Client} (h : Pooled s) {depth : Nat}
    {live : List (Nat × Nat)} (hgrow : s.heap.GrowsEnough size)
    (hcall : myMalloc host depth s.heap size = .returned (ptr, heap)) :
    Pooled ⟨heap, live, ptr :: s.returned⟩ ∧ ptr ≠ 0 := by
  obtain ⟨c, hserved⟩ := myMalloc_spec hostOk h.roomy.wf hgrow.safely hcall
  refine ⟨⟨(myMalloc_roomy hostOk h.roomy hgrow hcall).1, ?_⟩, ?_⟩
  · intro p hp
    cases List.mem_cons.mp hp with
    | inl hnew => exact ⟨c, hserved.mem, hnew.trans hserved.ptr_eq⟩
    | inr hold =>
        obtain ⟨a, ha, heq⟩ := h.returned p hold
        exact ⟨a, (hserved.old a ha).1, heq⟩
  · rw [hserved.ptr_eq]
    exact Nat.succ_ne_zero _

theorem Pooled.free {s : Client} (h : Pooled s) {live : List (Nat × Nat)}
    (hptr : ptr = 0 ∨ ptr ∈ s.returned) : Pooled ⟨myFree s.heap ptr, live, s.returned⟩ := by
  cases hptr with
  | inl hnull =>
      rw [hnull]
      exact ⟨h.roomy, h.returned⟩
  | inr hmem =>
      obtain ⟨a, ha, rfl⟩ := h.returned ptr hmem
      refine ⟨h.roomy.free ha, ?_⟩
      rw [myFree_block h.roomy.wf ha]
      exact h.returned

theorem Pooled.realloc (hostOk : HostOk host) {s : Client} (h : Pooled s) {depth newPtr : Nat}
    {live : List (Nat × Nat)} (hptr : ptr ∈ s.returned) (hsize : size ≠ 0)
    (hgrow : s.heap.GrowsEnough size)
    (hcall : myRealloc host depth s.heap ptr size = .returned (newPtr, heap)) :
    Pooled ⟨heap, live, newPtr :: s.returned⟩ ∧ newPtr ≠ 0 := by
  obtain ⟨a, ha, rfl⟩ := h.returned ptr hptr
  obtain ⟨middle, hinner, hrest⟩ := myRealloc_returned (Nat.succ_ne_zero _) hsize hcall
  have hnew : Pooled ⟨middle, live, newPtr :: s.returned⟩ ∧ newPtr ≠ 0 :=
    h.serve hostOk hgrow hinner
  obtain ⟨c, hserved⟩ := myMalloc_spec hostOk h.roomy.wf hgrow.safely hinner
  cases hrest with
  | inl hrefused => exact absurd hrefused.1 hnew.2
  | inr hcopied =>
      obtain ⟨-, rfl⟩ := hcopied
      have hcopy := Nat.min_le_left size (blockSize middle.mem (sub64 (a + 16) sizeofBlock))
      generalize min size _ = copySize at hcopy ⊢
      have hfits := hserved.fits
      have hbytes := hserved.wf.payload_bytes hserved.mem
        (copy middle.mem newPtr (a + 16) copySize) fun x hx =>
          copy_frame (by rw [hserved.ptr_eq]; omega)
      have hcopied : Pooled ⟨{ middle with mem := copy middle.mem newPtr (a + 16) copySize },
          live, newPtr :: s.returned⟩ := ⟨hnew.1.roomy.write hbytes, hnew.1.returned⟩
      exact ⟨hcopied.free (.inr (List.mem_cons_of_mem _ hptr)), hnew.2⟩

theorem Pooled.step (hostOk : HostOk host) (s : Client) (event : Event) (t : Client)
    (h : Pooled s) (hstep : PassesReturned s event ∧ Grows s event)
    (hrun : step host s event = some t) : Pooled t := by
  obtain ⟨hpasses, hgrows⟩ := hstep
  cases event with
  | malloc size depth =>
      obtain ⟨ptr, heap, hcall, rfl⟩ := step_malloc hrun
      exact (h.serve hostOk hgrows hcall).1
  | free ptr =>
      simp only [Allocator.step, Option.some.injEq] at hrun
      subst hrun
      exact h.free hpasses
  | realloc ptr size depth =>
      obtain ⟨newPtr, heap, hcall, rfl⟩ := step_realloc hrun
      by_cases hnull : ptr = 0
      · simp only [myRealloc, hnull, if_true] at hcall
        obtain ⟨hpooled, hnew⟩ := h.serve hostOk (hgrows (.inl hnull)) hcall
        rw [if_neg hnew]
        exact hpooled
      · by_cases hsize : size = 0
        · simp only [myRealloc, hnull, if_false, hsize, if_true, Outcome.returned.injEq,
            Prod.mk.injEq] at hcall
          obtain ⟨rfl, rfl⟩ := hcall
          exact h.free hpasses
        · obtain ⟨hpooled, hnew⟩ := h.realloc hostOk (hpasses.resolve_left hnull) hsize
            (hgrows (.inr hsize)) hcall
          rw [if_neg hnew]
          exact hpooled
  | write addr byte =>
      simp only [Allocator.step, Option.some.injEq] at hrun
      subst hrun
      refine ⟨h.roomy.write fun a ha x h1 h2 => ?_, h.returned⟩
      have hoff := hpasses a ha
      simp only [sizeofBlock] at hoff
      exact store8_frame (by omega)

/-- In every state of a run that grows the heap only from blocks larger than a header, a
request that the host grants the pools for is served inside the current one, with room for
the header in all of them, just where the request itself grows the heap so. -/
theorem request_in_current_pool_iff (host : Host) (hostOk : HostOk host) (mem : Bytes)
    (events : List Event) (s : Client) (size : Nat)
    (passes : Along (step host) PassesReturned (initial mem) events)
    (grows : Along (step host) Grows (initial mem) events)
    (h : run (step host) (initial mem) events = some s) (hsize : size ≤ 2 ^ 62) :
    (∃ depth ptr heap, myMalloc host depth s.heap size = .returned (ptr, heap) ∧
      InCurrentPool heap ptr size ∧ ∀ r ∈ heap.regions, sizeofBlock ≤ r.2) ↔
    Granted host s.heap size ∧ s.heap.GrowsEnough size :=
  served_in_pool_iff hostOk
    (invariant_along (Pooled.step hostOk) (Pooled.initial mem) (passes.and grows) h).roomy
    hsize

def bumpHost : Host := fun regions size =>
  let base := regions.foldr (fun r top => max top (r.1 + r.2)) 8192
  if base + size < 2 ^ 63 then base else 0

theorem bumpHost_top (regions : List (Nat × Nat)) : ∀ r ∈ regions,
    r.1 + r.2 ≤ regions.foldr (fun r top => max top (r.1 + r.2)) 8192 := by
  induction regions with
  | nil => simp
  | cons first rest ih =>
      intro r hr
      simp only [List.foldr_cons]
      cases List.mem_cons.mp hr with
      | inl hfirst =>
          rw [hfirst]
          exact Nat.le_max_right _ _
      | inr hrest => exact Nat.le_trans (ih r hrest) (Nat.le_max_left _ _)

theorem bumpHost_ok : HostOk bumpHost where
  bounds regions size h := by
    simp only [bumpHost] at h ⊢
    split at h
    · rename_i hroom
      rw [if_pos hroom]
      omega
    · exact absurd rfl h
  fresh regions size h r hr := by
    have htop := bumpHost_top regions r hr
    simp only [bumpHost] at h ⊢
    split at h
    · rename_i hroom
      rw [if_pos hroom]
      exact .inr htop
    · exact absurd rfl h

def comesBack : Outcome (Nat × Heap) → Bool
  | .returned _ => true
  | .exited | .running => false

theorem comesBack_returned {outcome : Outcome (Nat × Heap)} (h : comesBack outcome = true) :
    ∃ result, outcome = .returned result := by
  cases outcome with
  | returned result => exact ⟨result, rfl⟩
  | exited => cases h
  | running => cases h

/-- The rest of the first pool has 4048 bytes, and the next pool twice as many. -/
theorem request_in_current_pool_iff_bump :
    ∃ s, run (step bumpHost) (initial zeroBytes) [.malloc 16 1] = some s ∧
      ∃ depth ptr heap, myMalloc bumpHost depth s.heap 5000 = .returned (ptr, heap) ∧
        InCurrentPool heap ptr 5000 ∧ ∀ r ∈ heap.regions, sizeofBlock ≤ r.2 := by
  have hrun : (run (step bumpHost) (initial zeroBytes) [.malloc 16 1]).map (fun s =>
      (comesBack (myMalloc bumpHost 2 s.heap 5000), decide (s.heap.GrowsEnough 5000))) =
      some (true, true) := by
    decide +kernel
  obtain ⟨s, hs, hfacts⟩ := Option.map_eq_some_iff.mp hrun
  obtain ⟨hback, hgrow⟩ := Prod.mk.inj hfacts
  obtain ⟨result, hcall⟩ := comesBack_returned hback
  exact ⟨s, hs, (request_in_current_pool_iff bumpHost bumpHost_ok zeroBytes [.malloc 16 1] s 5000
    (by decide +kernel) (by decide +kernel) hs (by decide)).mpr
      ⟨granted_of_returned hcall, of_decide_eq_true hgrow⟩⟩

/-- The rest of the first pool has 8 bytes: the call comes back from a pool of none. -/
theorem request_outside_pool :
    ∃ s, run (step bumpHost) (initial zeroBytes) [.malloc 4056 1] = some s ∧
      Granted bumpHost s.heap 5000 ∧
      ¬ ∃ depth ptr heap, myMalloc bumpHost depth s.heap 5000 = .returned (ptr, heap) ∧
        InCurrentPool heap ptr 5000 ∧ ∀ r ∈ heap.regions, sizeofBlock ≤ r.2 := by
  have hrun : (run (step bumpHost) (initial zeroBytes) [.malloc 4056 1]).map (fun s =>
      (comesBack (myMalloc bumpHost 3 s.heap 5000), decide (s.heap.GrowsEnough 5000))) =
      some (true, false) := by
    decide +kernel
  obtain ⟨s, hs, hfacts⟩ := Option.map_eq_some_iff.mp hrun
  obtain ⟨hback, hgrow⟩ := Prod.mk.inj hfacts
  obtain ⟨result, hcall⟩ := comesBack_returned hback
  have hpooled : Pooled s := invariant_along (Pooled.step bumpHost_ok)
    (Pooled.initial zeroBytes) (by decide +kernel) hs
  refine ⟨s, hs, granted_of_returned hcall, fun hserved => ?_⟩
  exact of_decide_eq_false hgrow
    ((served_in_pool_iff bumpHost_ok hpooled.roomy (by decide)).mp hserved).2

end LinuxTraining.Allocator
