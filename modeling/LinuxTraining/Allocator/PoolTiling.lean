import LinuxTraining.Allocator.Client

/-!
One pool, from its creation through every request that its chain can serve. The
headers written in it, linked or cut off, tile the pool.
-/
namespace LinuxTraining.Allocator
open Memory Execution

/-- The chain can serve each request, freed pointers came from the pool and the
client writes to no header. -/
def StaysInPool (s : Client) : Event → Prop
  | .malloc size _ => ∃ b ∈ s.heap.chain, size ≤ blockSize s.heap.mem b
  | .free ptr => ptr ∈ s.returned
  | .realloc ptr size _ =>
      ptr ∈ s.returned ∧ (size ≠ 0 → ∃ b ∈ s.heap.chain, size ≤ blockSize s.heap.mem b)
  | .write addr _ => ∀ a ∈ s.heap.headers, addr < a ∨ a + sizeofBlock ≤ addr

instance (s : Client) : (event : Event) → Decidable (StaysInPool s event)
  | .malloc size _ =>
      inferInstanceAs (Decidable (∃ b ∈ s.heap.chain, size ≤ blockSize s.heap.mem b))
  | .free ptr => inferInstanceAs (Decidable (ptr ∈ s.returned))
  | .realloc ptr size _ =>
      inferInstanceAs (Decidable (ptr ∈ s.returned ∧
        (size ≠ 0 → ∃ b ∈ s.heap.chain, size ≤ blockSize s.heap.mem b)))
  | .write addr _ =>
      inferInstanceAs (Decidable (∀ a ∈ s.heap.headers, addr < a ∨ a + sizeofBlock ≤ addr))

/-- The pool `[base, base + capacity)` is tiled by the headers written in it. -/
structure PoolTiled (base capacity : Nat) (heap : Heap) : Prop where
  disjoint : ∀ a ∈ heap.headers, ∀ b ∈ heap.headers, a ≠ b →
    DisjointRanges (a, extent heap.mem a) (b, extent heap.mem b)
  cover : ∀ x, (base ≤ x ∧ x < base + capacity) ↔
    ∃ a ∈ heap.headers, a ≤ x ∧ x < a + extent heap.mem a
  next : ∀ a ∈ heap.headers, blockNext heap.mem a = 0 ∨
    (blockNext heap.mem a ∈ heap.headers ∧ blockNext heap.mem a = a + extent heap.mem a)

/-- For the block `c` that serves `size`, neither `size + sizeof(block_t)` nor, when
the block is split, `c->size - size - sizeof(block_t)` wraps. -/
def SplitExact (heap : Heap) (c size : Nat) : Prop :=
  add64 size sizeofBlock = size + 16 ∧
  (add64 size sizeofBlock < blockSize heap.mem c →
    size + 16 ≤ blockSize heap.mem c ∧
    sub64 (sub64 (blockSize heap.mem c) size) sizeofBlock = blockSize heap.mem c - size - 16)

structure InPool (base capacity : Nat) (s : Client) : Prop where
  wf : WellFormed s.heap
  regions : s.heap.regions = [(base, capacity)]
  returned : ∀ ptr ∈ s.returned, ∃ a ∈ s.heap.headers, ptr = a + 16

theorem InPool.tiled {base capacity : Nat} {s : Client} (h : InPool base capacity s) :
    PoolTiled base capacity s.heap where
  disjoint a ha b hb hne := h.wf.blocks.disjoint a ha b hb hne
  cover x := by
    have hregion : InRegions s.heap.regions x ↔ base ≤ x ∧ x < base + capacity := by
      simp [InRegions, h.regions]
    rw [← hregion]
    constructor
    · exact h.wf.blocks.cover x
    · rintro ⟨a, ha, hlow, hhigh⟩
      exact h.wf.blocks.inside a ha x hlow hhigh
  next a ha := (h.wf.next a ha).imp_right fun ⟨heq, hmem⟩ => ⟨heq ▸ hmem, heq⟩

theorem InPool.split_exact {base capacity : Nat} {s : Client} (h : InPool base capacity s)
    {c size : Nat} (hfirst : s.heap.firstFit size = some c) : SplitExact s.heap c size := by
  obtain ⟨hchain, hfits⟩ := firstFit_some hfirst
  obtain ⟨hadd, hsub⟩ := h.wf.split_no_wrap (h.wf.chain_headers c hchain) hfits
  refine ⟨hadd, fun hlarge => ?_⟩
  rw [hadd] at hlarge
  exact ⟨(hsub hlarge).2, (hsub hlarge).1⟩

theorem firstFit_exists {heap : Heap} {size : Nat}
    (h : ∃ b ∈ heap.chain, size ≤ blockSize heap.mem b) :
    ∃ c, heap.firstFit size = some c := by
  obtain ⟨b, hb, hfits⟩ := h
  have hsome : (heap.firstFit size).isSome := by
    rw [Heap.firstFit, List.find?_isSome]
    exact ⟨b, hb, by simpa using hfits⟩
  exact Option.isSome_iff_exists.mp hsome

theorem grows_of_firstFit {heap : Heap} {size c : Nat} (h : heap.firstFit size = some c) :
    heap.GrowsSafely size := by
  intro hnone
  rw [h] at hnone
  cases hnone

theorem InPool.serve {base capacity : Nat} {s : Client} (h : InPool base capacity s)
    {heap : Heap} {size ptr c : Nat} {live : List (Nat × Nat)}
    (hserved : Served s.heap heap size ptr c) (hregions : heap.regions = s.heap.regions) :
    InPool base capacity ⟨heap, live, ptr :: s.returned⟩ where
  wf := hserved.wf
  regions := hregions.trans h.regions
  returned := by
    intro p hp
    cases List.mem_cons.mp hp with
    | inl hsame =>
        subst hsame
        exact ⟨c, hserved.mem, hserved.ptr_eq⟩
    | inr hp =>
        obtain ⟨a, ha, heq⟩ := h.returned p hp
        exact ⟨a, (hserved.old a ha).1, heq⟩

theorem InPool.free {base capacity : Nat} {s : Client} (h : InPool base capacity s)
    {ptr : Nat} {live : List (Nat × Nat)} (hptr : ptr ∈ s.returned) :
    InPool base capacity ⟨myFree s.heap ptr, live, s.returned⟩ := by
  obtain ⟨a, ha, rfl⟩ := h.returned ptr hptr
  rw [myFree_block h.wf ha]
  exact ⟨h.wf.unlink ha, h.regions, h.returned⟩

theorem InPool.step {host : Host} (hostOk : HostOk host) {base capacity : Nat}
    (s : Client) (event : Event) (t : Client) (h : InPool base capacity s)
    (hstays : StaysInPool s event) (hrun : step host s event = some t) :
    InPool base capacity t := by
  cases event with
  | malloc size depth =>
      obtain ⟨b, hfirst⟩ := firstFit_exists hstays
      obtain ⟨ptr, heap, hcall, rfl⟩ := step_malloc hrun
      obtain ⟨c, hserved⟩ := myMalloc_spec hostOk h.wf (grows_of_firstFit hfirst) hcall
      refine h.serve hserved ?_
      rw [(myMalloc_firstFit hfirst hcall).2, serve_regions]
  | free ptr =>
      simp only [Allocator.step, Option.some.injEq] at hrun
      subst hrun
      exact h.free hstays
  | realloc ptr size depth =>
      obtain ⟨hptr, hserves⟩ := hstays
      obtain ⟨a, ha, rfl⟩ := h.returned ptr hptr
      by_cases hsize : size = 0
      · simp only [Allocator.step, myRealloc, Nat.add_eq_zero_iff, OfNat.ofNat_ne_zero,
          and_false, if_false, hsize, if_true, Option.some.injEq] at hrun
        subst hrun
        exact h.free hptr
      · obtain ⟨b, hfirst⟩ := firstFit_exists (hserves hsize)
        obtain ⟨newPtr, heap, hcall, rfl⟩ := step_realloc hrun
        obtain ⟨c, hserved⟩ := myRealloc_spec hostOk h.wf ha hsize
          (grows_of_firstFit hfirst) hcall
        have hnull : newPtr ≠ 0 := by
          rw [hserved.ptr_eq]
          omega
        rw [if_neg hnull]
        exact h.serve hserved (myRealloc_regions hsize hfirst hcall)
  | write addr byte =>
      simp only [Allocator.step, Option.some.injEq] at hrun
      subst hrun
      refine ⟨h.wf.congr ?_, h.regions, h.returned⟩
      intro a ha x h1 h2
      have := hstays a ha
      simp only [sizeofBlock] at this
      exact store8_frame (by omega)

theorem InPool.created {host : Host} (hostOk : HostOk host) {mem : Bytes}
    {prior capacity : Nat} {heap : Heap} (hcap : sizeofBlock ≤ capacity)
    (hinit : initializeMemoryPool host ⟨mem, prior, [], []⟩ capacity = some heap) :
    InPool heap.memoryPool capacity ⟨heap, [], []⟩ := by
  have hsame : initializeMemoryPool host (initial mem).heap capacity = some heap := hinit
  obtain ⟨hwf, _⟩ := initialize_spec hostOk (Separated.initial mem).wf hcap hsame
  refine ⟨hwf, ?_, by simp⟩
  simp only [initializeMemoryPool] at hinit
  split at hinit
  · cases hinit
  · cases hinit
    rfl

/-- Every state of a run that stays in one pool is tiled by the headers written in
the pool, and serving a request from it wraps no size. -/
theorem pool_headers_tile (host : Host) (hostOk : HostOk host) (mem : Bytes)
    (prior capacity : Nat) (heap : Heap) (events : List Event) (s : Client)
    (hcap : sizeofBlock ≤ capacity)
    (created : initializeMemoryPool host ⟨mem, prior, [], []⟩ capacity = some heap)
    (stays : Along (step host) StaysInPool ⟨heap, [], []⟩ events)
    (h : run (step host) ⟨heap, [], []⟩ events = some s) :
    PoolTiled heap.memoryPool capacity s.heap ∧
    ∀ size c, s.heap.firstFit size = some c → SplitExact s.heap c size := by
  have hpool := invariant_along (InPool.step hostOk) (InPool.created hostOk hcap created) stays h
  exact ⟨hpool.tiled, fun size c hfirst => hpool.split_exact hfirst⟩

def smallPool : Heap :=
  (initializeMemoryPool onePoolHost ⟨zeroBytes, 0, [], []⟩ 96).getD ⟨zeroBytes, 0, [], []⟩

/-- A split, a reallocation in place that cuts the rest off, and a write. -/
theorem pool_headers_tile_small :
    ∃ s, run (step onePoolHost) ⟨smallPool, [], []⟩
        [.malloc 16 1, .realloc 8208 8 1, .write 8210 7, .free 8208] = some s ∧
      PoolTiled 8192 96 s.heap ∧
      ∀ size c, s.heap.firstFit size = some c → SplitExact s.heap c size := by
  have hruns : (run (step onePoolHost) ⟨smallPool, [], []⟩
      [.malloc 16 1, .realloc 8208 8 1, .write 8210 7, .free 8208]).isSome := by decide +kernel
  obtain ⟨s, hs⟩ := Option.isSome_iff_exists.mp hruns
  exact ⟨s, hs, pool_headers_tile onePoolHost onePoolHost_ok zeroBytes 0 96 smallPool _ s
    (by decide) rfl (by decide +kernel) hs⟩

end LinuxTraining.Allocator
