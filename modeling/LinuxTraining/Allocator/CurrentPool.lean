import LinuxTraining.Allocator.Client

/-!
The pool that `memory_pool` points to. A chain never leaves it, so that a block found by
the search lies in what the host returned last.
-/
namespace LinuxTraining.Allocator
open Memory

variable {heap heap' : Heap} {host : Host} {size : Nat}

theorem search_ends (h : WellFormed heap) {turns block previous : Nat}
    (hblock : block = 0 ∧ 0 < turns ∨ block ∈ heap.headers ∧ wordSize ≤ block + turns) :
    search heap.mem size turns block previous ≠ .endless := by
  induction turns generalizing block previous with
  | zero =>
      cases hblock with
      | inl hnull => exact absurd hnull.2 (Nat.lt_irrefl 0)
      | inr hmem =>
          have hend := h.header_end hmem.1
          have hext := extent_ge heap.mem block
          simp only [wordSize] at hmem
          omega
  | succ turns ih =>
      simp only [search]
      split
      · simp
      · rename_i hnull
        split
        · simp
        · have hmem := hblock.resolve_left fun hzero => hnull hzero.1
          have hend := h.header_end hmem.1
          have hext := extent_ge heap.mem block
          have hword : wordSize = 2 ^ 64 := rfl
          apply ih
          cases h.next block hmem.1 with
          | inl hlast => exact .inl ⟨hlast, by omega⟩
          | inr hlink => exact .inr ⟨by rw [hlink.1]; exact hlink.2, by omega⟩

/-- The search finds the first fit, or it comes to the last block of the chain. -/
theorem search_cases (h : WellFormed heap) (hpool : heap.memoryPool ≠ 0) (size : Nat) :
    (∃ c, heap.firstFit size = some c ∧
      search heap.mem size wordSize heap.memoryPool 0 = .found c) ∨
    (∃ last, heap.firstFit size = none ∧ heap.chain.getLast? = some last ∧
      search heap.mem size wordSize heap.memoryPool 0 = .exhausted last) := by
  have hends : search heap.mem size wordSize heap.memoryPool 0 ≠ .endless :=
    search_ends h (.inr ⟨h.pool.resolve_left hpool, Nat.le_add_left _ _⟩)
  cases hsearch : search heap.mem size wordSize heap.memoryPool 0 with
  | endless => exact absurd hsearch hends
  | found c => exact .inl ⟨c, (search_found_iff _ _ _ _ _ _).mp hsearch, rfl⟩
  | exhausted previous =>
      obtain ⟨hnone, hprevious⟩ := search_exhausted _ hsearch
      obtain ⟨last, hlast⟩ := chain_getLast hpool
      refine .inr ⟨last, hnone, hlast, ?_⟩
      rw [hprevious, show chainFrom heap.mem wordSize heap.memoryPool = heap.chain from rfl,
        hlast, Option.getD_some]

theorem firstFit_pool {c : Nat} (h : heap.firstFit size = some c) : heap.memoryPool ≠ 0 := by
  intro hnull
  simp [Heap.firstFit, chain_null hnull] at h

theorem myMalloc_found (h : WellFormed heap) {c : Nat} (hfirst : heap.firstFit size = some c)
    (depth : Nat) :
    myMalloc host (depth + 1) heap size = .returned (c + 16, serve heap c size) := by
  have hmem := h.chain_headers c (firstFit_some hfirst).1
  have hend := h.header_end hmem
  have hext := extent_ge heap.mem c
  have hsearch := (search_found_iff heap.mem size wordSize heap.memoryPool 0 c).mpr hfirst
  simp only [myMalloc, firstFit_pool hfirst, if_false, allocate, hsearch]
  rw [add64_eq (by simp only [sizeofBlock]; omega)]
  rfl

theorem search_last (h : WellFormed heap) {last : Nat} (hnone : heap.firstFit size = none)
    (hlast : heap.chain.getLast? = some last) :
    heap.memoryPool ≠ 0 ∧ last ≠ 0 ∧
      search heap.mem size wordSize heap.memoryPool 0 = .exhausted last ∧
      mul64 (blockSize heap.mem last) 2 = blockSize heap.mem last * 2 := by
  have hpool : heap.memoryPool ≠ 0 := by
    intro hnull
    rw [chain_null hnull] at hlast
    cases hlast
  have hmem := h.chain_headers last (List.mem_of_getLast? hlast)
  have hbound := h.size_lt hmem
  refine ⟨hpool, Nat.pos_iff_ne_zero.mp (h.header_pos hmem), ?_, mul64_eq (by omega)⟩
  cases search_cases h hpool size with
  | inl hfound =>
      obtain ⟨c, hfirst, -⟩ := hfound
      rw [hnone] at hfirst
      cases hfirst
  | inr hexhausted =>
      obtain ⟨last', -, hlast', hsearch⟩ := hexhausted
      rwa [Option.some.inj (hlast.symm.trans hlast')]

/-- Without a fit the call goes on in a pool of twice the last block's size. -/
theorem myMalloc_grows (h : WellFormed heap) {last : Nat} (hnone : heap.firstFit size = none)
    (hlast : heap.chain.getLast? = some last) (depth : Nat) :
    myMalloc host (depth + 1) heap size =
      match initializeMemoryPool host heap (blockSize heap.mem last * 2) with
      | none => .exited
      | some grown => myMalloc host depth grown size := by
  obtain ⟨hpool, hnull, hsearch, hdouble⟩ := search_last h hnone hlast
  cases hinit : initializeMemoryPool host heap (blockSize heap.mem last * 2) with
  | none => simp only [myMalloc, hpool, if_false, allocate, hsearch, hnull, hdouble, hinit]
  | some grown => simp only [myMalloc, hpool, if_false, allocate, hsearch, hnull, hdouble, hinit]

theorem initialize_regions (h : initializeMemoryPool host heap size = some heap') :
    heap'.regions = (heap'.memoryPool, size) :: heap.regions ∧
      heap'.headers = heap'.memoryPool :: heap.headers ∧ heap'.memoryPool ≠ 0 := by
  simp only [initializeMemoryPool] at h
  split at h
  · cases h
  · rename_i hpool
    obtain rfl := Option.some.inj h
    exact ⟨rfl, rfl, hpool⟩

/-- Before the first pool a call makes one and then starts over. -/
theorem myMalloc_first (hnull : heap.memoryPool = 0) (depth : Nat) :
    myMalloc host (depth + 1) heap size =
      match initializeMemoryPool host heap defaultSize with
      | none => .exited
      | some start => myMalloc host (depth + 1) start size := by
  simp only [myMalloc, hnull, if_true]
  cases hinit : initializeMemoryPool host heap defaultSize with
  | none => rfl
  | some start => simp only [(initialize_regions hinit).2.2, if_false]

/-- The blocks of the region `pool` end in it, and so do their links. -/
structure CurrentPool (heap : Heap) (pool : Nat × Nat) : Prop where
  newest : heap.regions.head? = some pool
  base : pool.1 = heap.memoryPool
  inside : ∀ a ∈ heap.headers, pool.1 ≤ a → a < pool.1 + pool.2 →
    a + extent heap.mem a ≤ pool.1 + pool.2 ∧ blockNext heap.mem a < pool.1 + pool.2

structure Roomy (heap : Heap) : Prop where
  wf : WellFormed heap
  room : ∀ r ∈ heap.regions, sizeofBlock ≤ r.2
  current : heap.memoryPool = 0 ∨ ∃ pool, CurrentPool heap pool

theorem CurrentPool.chainFrom {pool : Nat × Nat} (h : CurrentPool heap pool)
    (hwf : WellFormed heap) {turns block : Nat}
    (hblock : block = 0 ∨ block ∈ heap.headers ∧ pool.1 ≤ block ∧ block < pool.1 + pool.2) :
    ∀ a ∈ chainFrom heap.mem turns block,
      a ∈ heap.headers ∧ pool.1 ≤ a ∧ a < pool.1 + pool.2 := by
  induction turns generalizing block with
  | zero => simp [Allocator.chainFrom]
  | succ turns ih =>
      intro a ha
      by_cases hnull : block = 0
      · simp [Allocator.chainFrom, hnull] at ha
      · obtain ⟨hmem, hlow, hhigh⟩ := hblock.resolve_left hnull
        simp only [Allocator.chainFrom, hnull, if_false, List.mem_cons] at ha
        cases ha with
        | inl hfirst =>
            rw [hfirst]
            exact ⟨hmem, hlow, hhigh⟩
        | inr hrest =>
            refine ih ?_ a hrest
            have hext := extent_ge heap.mem block
            have hin := (h.inside block hmem hlow hhigh).2
            exact (hwf.next block hmem).imp_right fun hlink =>
              ⟨by rw [hlink.1]; exact hlink.2, by omega, hin⟩

theorem Roomy.chain (h : Roomy heap) (hpool : heap.memoryPool ≠ 0) :
    ∃ pool, CurrentPool heap pool ∧
      ∀ a ∈ heap.chain, a ∈ heap.headers ∧ pool.1 ≤ a ∧ a < pool.1 + pool.2 := by
  obtain ⟨pool, hcurrent⟩ := h.current.resolve_left hpool
  refine ⟨pool, hcurrent, hcurrent.chainFrom h.wf (.inr ⟨h.wf.pool.resolve_left hpool, ?_, ?_⟩)⟩
  · rw [hcurrent.base]
  · have hroom := h.room pool (List.mem_of_mem_head? hcurrent.newest)
    rw [hcurrent.base]
    simp only [sizeofBlock] at hroom
    omega

theorem CurrentPool.congr {pool : Nat × Nat} (h : CurrentPool heap pool) {mem : Bytes}
    (hext : ∀ a ∈ heap.headers, extent mem a = extent heap.mem a)
    (hnext : ∀ a ∈ heap.headers, blockNext mem a = 0 ∨ blockNext mem a = blockNext heap.mem a) :
    CurrentPool { heap with mem := mem } pool where
  newest := h.newest
  base := h.base
  inside := by
    intro a ha hlow hhigh
    obtain ⟨hend, hlink⟩ := h.inside a ha hlow hhigh
    rw [hext a ha]
    refine ⟨hend, ?_⟩
    cases hnext a ha with
    | inl hzero =>
        rw [hzero]
        omega
    | inr hsame =>
        rw [hsame]
        exact hlink

theorem CurrentPool.serve {pool : Nat × Nat} (h : CurrentPool heap pool) (hwf : WellFormed heap)
    {c : Nat} (hc : c ∈ heap.headers) (hin : pool.1 ≤ c ∧ c < pool.1 + pool.2)
    (hfits : size ≤ blockSize heap.mem c) : CurrentPool (serve heap c size) pool := by
  cases serve_cases hwf hc hfits with
  | inl hwhole =>
      rw [hwhole.1]
      exact h
  | inr hsplit =>
      obtain ⟨hlarge, heq⟩ := hsplit
      generalize hm : cutMem heap.mem c (c + 16 + size) size
        (blockSize heap.mem c - size - 16) (blockNext heap.mem c) = mem' at *
      obtain ⟨⟨hsizec, hnextc⟩, ⟨hsizeb, hnextb⟩, hothers⟩ := hwf.split_spec hc hlarge hm
      obtain ⟨hend, hlink⟩ := h.inside c hc hin.1 hin.2
      simp only [extent, sizeofBlock] at hend
      rw [heq]
      refine ⟨h.newest, h.base, fun a ha hlow hhigh => ?_⟩
      simp only [extent, sizeofBlock] at ha ⊢
      cases List.mem_cons.mp ha with
      | inl hnew =>
          rw [hnew, hsizeb, hnextb]
          exact ⟨by omega, hlink⟩
      | inr hold =>
          by_cases hac : a = c
          · rw [hac, hsizec, hnextc]
            exact ⟨by omega, by omega⟩
          · rw [(hothers a hold hac).1, (hothers a hold hac).2]
            exact h.inside a hold hlow hhigh

/-- Serving the first fit keeps every pool, and the request lies in the current one. -/
theorem Roomy.serve (h : Roomy heap) {c : Nat} (hfirst : heap.firstFit size = some c) :
    Roomy (serve heap c size) ∧ ∃ pool, CurrentPool (serve heap c size) pool ∧
      pool.1 + sizeofBlock ≤ c + 16 ∧ c + 16 + size ≤ pool.1 + pool.2 := by
  obtain ⟨hchain, hfits⟩ := firstFit_some hfirst
  obtain ⟨pool, hcurrent, hinside⟩ := h.chain (firstFit_pool hfirst)
  obtain ⟨hc, hlow, hhigh⟩ := hinside c hchain
  have hserved := hcurrent.serve h.wf hc ⟨hlow, hhigh⟩ hfits
  have hend := (hcurrent.inside c hc hlow hhigh).1
  simp only [extent, sizeofBlock] at hend ⊢
  refine ⟨⟨(serve_spec h.wf hc hfits).1, ?_, .inr ⟨pool, hserved⟩⟩, pool, hserved, by omega,
    by omega⟩
  rw [serve_regions]
  exact h.room

theorem Roomy.congr (h : Roomy heap) {mem : Bytes} (hwf : WellFormed { heap with mem := mem })
    (hext : ∀ a ∈ heap.headers, extent mem a = extent heap.mem a)
    (hnext : ∀ a ∈ heap.headers, blockNext mem a = 0 ∨ blockNext mem a = blockNext heap.mem a) :
    Roomy { heap with mem := mem } where
  wf := hwf
  room := h.room
  current := h.current.imp_right fun hcurrent => by
    obtain ⟨pool, hpool⟩ := hcurrent
    exact ⟨pool, hpool.congr hext hnext⟩

theorem Roomy.write (h : Roomy heap) {mem : Bytes}
    (same : ∀ a ∈ heap.headers, ∀ x, a ≤ x → x < a + 16 → mem x = heap.mem x) :
    Roomy { heap with mem := mem } := by
  refine h.congr (h.wf.congr same) ?_ ?_
  · intro a ha
    rw [extent, extent, (header_congr (same a ha)).1]
  · intro a ha
    exact .inr (header_congr (same a ha)).2

theorem Roomy.free (h : Roomy heap) {a : Nat} (ha : a ∈ heap.headers) :
    Roomy (myFree heap (a + 16)) := by
  rw [myFree_block h.wf ha]
  have hothers : ∀ b ∈ heap.headers, b ≠ a →
      blockSize (setNext heap.mem a 0) b = blockSize heap.mem b ∧
      blockNext (setNext heap.mem a 0) b = blockNext heap.mem b := fun b hb hne =>
    h.wf.other_headers ha hb hne fun x hx => setNext_frame (by
      have := extent_ge heap.mem a
      omega)
  refine h.congr (h.wf.unlink ha) ?_ ?_
  · intro b hb
    by_cases hba : b = a
    · rw [hba, extent, extent, blockSize_setNext]
    · rw [extent, extent, (hothers b hb hba).1]
  · intro b hb
    by_cases hba : b = a
    · rw [hba]
      exact .inl (blockNext_setNext (by decide))
    · exact .inr (hothers b hb hba).2

theorem Roomy.empty (mem : Bytes) : Roomy (initial mem).heap where
  wf := (Separated.initial mem).wf
  room := by simp [initial]
  current := .inl rfl

/-- A new pool that has room for its header is the current one, and its first block is
all of it. -/
theorem Roomy.initialize (hostOk : HostOk host) (h : Roomy heap) (hsize : 16 ≤ size)
    (hinit : initializeMemoryPool host heap size = some heap') :
    Roomy heap' ∧ heap'.chain = [heap'.memoryPool] ∧
      blockSize heap'.mem heap'.memoryPool = size - 16 := by
  obtain ⟨hwf, hfresh, hpool, hblock, hnext, hold⟩ := initialize_spec hostOk h.wf hsize hinit
  obtain ⟨hregions, hheaders, hnull⟩ := initialize_regions hinit
  refine ⟨⟨hwf, ?_, .inr ⟨(heap'.memoryPool, size), ?_, rfl, ?_⟩⟩, chain_single hnull hnext, hblock⟩
  · intro r hr
    rw [hregions] at hr
    cases List.mem_cons.mp hr with
    | inl hnew =>
        rw [hnew]
        exact hsize
    | inr hbefore => exact h.room r hbefore
  · rw [hregions, List.head?_cons]
  · intro a ha hlow hhigh
    -- the new region meets no other block
    have hfirst : a = heap'.memoryPool := by
      by_cases hne : a = heap'.memoryPool
      · exact hne
      · have hapart := hwf.apart ha hpool hne
        simp only at hlow hhigh
        omega
    rw [hfirst, hnext, extent, hblock]
    simp only [sizeofBlock]
    omega

end LinuxTraining.Allocator
