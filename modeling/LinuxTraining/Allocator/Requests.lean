import LinuxTraining.Allocator.WellFormed

/-!
What a whole call of `my_malloc` or `my_realloc` does to a well-formed heap:
which block it returns and what it leaves of the others. A new pool keeps the
heap well formed when it is not smaller than its own header.
-/
namespace LinuxTraining.Allocator
open Memory

variable {heap heap' : Heap} {host : Host}

theorem inRegions_cons (base size : Nat) (regions : List (Nat × Nat)) :
    InRegions ((base, size) :: regions) =
      fun x => (base ≤ x ∧ x < base + size) ∨ InRegions regions x := by
  funext x
  simp [InRegions]

theorem initialize_spec (hostOk : HostOk host) (h : WellFormed heap) {size : Nat}
    (hsize : 16 ≤ size) (hinit : initializeMemoryPool host heap size = some heap') :
    WellFormed heap' ∧ heap'.memoryPool ∉ heap.headers ∧
    heap'.memoryPool ∈ heap'.headers ∧
    blockSize heap'.mem heap'.memoryPool = size - 16 ∧
    blockNext heap'.mem heap'.memoryPool = 0 ∧
    ∀ a ∈ heap.headers, a ∈ heap'.headers ∧
      blockSize heap'.mem a = blockSize heap.mem a := by
  generalize hbase : host heap.regions size = base
  have hnull : base ≠ 0 := by
    rintro rfl
    simp [initializeMemoryPool, hbase] at hinit
  simp only [initializeMemoryPool, hbase, hnull, if_false, Option.some.injEq] at hinit
  obtain ⟨hend, hmax⟩ := hostOk.bounds heap.regions size (by rwa [hbase])
  have hfresh := hostOk.fresh heap.regions size (by rwa [hbase])
  rw [hbase] at hend hfresh
  have hsub : sub64 size sizeofBlock = size - 16 :=
    sub64_eq (by simpa [sizeofBlock] using hsize) (by omega)
  rw [hsub] at hinit
  subst hinit
  generalize hm : setNext (setSize heap.mem base (size - 16)) base 0 = mem'
  have hsizep : blockSize mem' base = size - 16 := by
    rw [← hm, blockSize_setNext, blockSize_setSize (by omega)]
  have hnextp : blockNext mem' base = 0 := by
    rw [← hm, blockNext_setNext (by decide)]
  have houtside : ∀ x, base ≤ x → x < base + size → ¬ InRegions heap.regions x := by
    rintro x h1 h2 ⟨r, hr, h3, h4⟩
    have := hfresh r hr
    omega
  have hothers : ∀ a ∈ heap.headers,
      blockSize mem' a = blockSize heap.mem a ∧ blockNext mem' a = blockNext heap.mem a := by
    intro a ha
    apply header_congr
    intro x h1 h2
    obtain ⟨r, hr, hlow, hhigh⟩ := h.home a ha
    have hext := extent_ge heap.mem a
    have := hfresh r hr
    rw [← hm, setNext_frame (by omega), setSize_frame (by omega)]
  have hnotmem : base ∉ heap.headers := fun hb =>
    houtside base (Nat.le_refl _) (by omega) (h.blocks.start_mem hb)
  have hblocks := h.blocks.insert (extent mem') (b := base) (n := size) (by omega)
    houtside (by simp only [extent, sizeofBlock, hsizep]; omega)
    (fun a ha => by simp only [extent, (hothers a ha).1])
  refine ⟨⟨?_, ?_, ?_, Or.inr List.mem_cons_self, ?_⟩, hnotmem, List.mem_cons_self, hsizep,
    hnextp, fun a ha => ⟨List.mem_cons_of_mem _ ha, (hothers a ha).1⟩⟩
  · rw [inRegions_cons]
    exact hblocks
  · intro a ha
    simp only [extent, sizeofBlock]
    cases List.mem_cons.mp ha with
    | inl hsame =>
        subst hsame
        exact ⟨(a, size), List.mem_cons_self, Nat.le_refl _, by rw [hsizep]; omega⟩
    | inr ha =>
        obtain ⟨r, hr, hbounds⟩ := h.home a ha
        refine ⟨r, List.mem_cons_of_mem _ hr, ?_⟩
        rw [(hothers a ha).1]
        exact hbounds
  · intro a ha
    cases List.mem_cons.mp ha with
    | inl hsame =>
        subst hsame
        exact Or.inl hnextp
    | inr ha =>
        simp only [extent, sizeofBlock]
        rw [(hothers a ha).1, (hothers a ha).2]
        exact (h.next a ha).imp_right fun hlink => ⟨hlink.1, List.mem_cons_of_mem _ hlink.2⟩
  · intro r hr
    cases List.mem_cons.mp hr with
    | inl hsame =>
        subst hsame
        exact ⟨by omega, hend, hmax⟩
    | inr hr =>
        exact h.range r hr

theorem chainFrom_headers (h : WellFormed heap) {turns block : Nat}
    (hblock : block = 0 ∨ block ∈ heap.headers) :
    ∀ a ∈ chainFrom heap.mem turns block, a ∈ heap.headers := by
  induction turns generalizing block with
  | zero => simp [chainFrom]
  | succ turns ih =>
      intro a ha
      by_cases hnull : block = 0
      · simp [chainFrom, hnull] at ha
      · have hmem := hblock.resolve_left hnull
        simp only [chainFrom, hnull, if_false, List.mem_cons] at ha
        cases ha with
        | inl hsame =>
            subst hsame
            exact hmem
        | inr ha =>
            refine ih ((h.next block hmem).imp_right fun hlink => ?_) a ha
            rw [hlink.1]
            exact hlink.2

theorem WellFormed.chain_headers (h : WellFormed heap) :
    ∀ a ∈ heap.chain, a ∈ heap.headers :=
  chainFrom_headers h h.pool

def Heap.firstFit (heap : Heap) (size : Nat) : Option Nat :=
  heap.chain.find? fun b => decide (size ≤ blockSize heap.mem b)

theorem firstFit_some {size b : Nat} (h : heap.firstFit size = some b) :
    b ∈ heap.chain ∧ size ≤ blockSize heap.mem b :=
  ⟨List.mem_of_find?_eq_some h, by simpa using List.find?_some h⟩

theorem chain_single (hpool : heap.memoryPool ≠ 0)
    (hnext : blockNext heap.mem heap.memoryPool = 0) : heap.chain = [heap.memoryPool] := by
  have hturns : wordSize = 2 ^ 64 - 2 + 1 + 1 := by decide
  rw [Heap.chain, hturns, chainFrom, if_neg hpool, hnext, chainFrom, if_pos rfl]

def Heap.GrowsSafely (heap : Heap) (size : Nat) : Prop :=
  heap.firstFit size = none → ∀ last, heap.chain.getLast? = some last →
    16 ≤ blockSize heap.mem last

theorem chain_getLast (hpool : heap.memoryPool ≠ 0) :
    ∃ last, heap.chain.getLast? = some last := by
  have hturns : wordSize = 2 ^ 64 - 1 + 1 := by decide
  rw [Heap.chain, hturns, chainFrom, if_neg hpool]
  exact ⟨_, List.getLast?_cons⟩

theorem chain_null (hpool : heap.memoryPool = 0) : heap.chain = [] := by
  have hturns : wordSize = 2 ^ 64 - 1 + 1 := by decide
  rw [Heap.chain, hturns, chainFrom, if_pos hpool]

/-- A request that the chain can serve is served from its first fit, and the heap
keeps its pools. -/
theorem myMalloc_firstFit {depth size ptr block : Nat} (hfirst : heap.firstFit size = some block)
    (hcall : myMalloc host depth heap size = .returned (ptr, heap')) :
    ptr = add64 block sizeofBlock ∧ heap' = serve heap block size := by
  have hsearch := (search_found_iff heap.mem size wordSize heap.memoryPool 0 block).mpr hfirst
  have hpool : heap.memoryPool ≠ 0 := by
    intro hnull
    simp [Heap.firstFit, chain_null hnull] at hfirst
  cases depth with
  | zero => simp [myMalloc] at hcall
  | succ depth =>
      simp only [myMalloc, hpool, if_false, allocate, hsearch, Outcome.returned.injEq,
        Prod.mk.injEq] at hcall
      exact ⟨hcall.1.symm, hcall.2.symm⟩

/-- A returning `my_realloc` of a block asks `my_malloc` for a new one, copies a part of
the old one into it and frees the old one. -/
theorem myRealloc_returned {depth ptr size newPtr : Nat} (hptr : ptr ≠ 0) (hsize : size ≠ 0)
    (hcall : myRealloc host depth heap ptr size = .returned (newPtr, heap')) :
    ∃ middle, myMalloc host depth heap size = .returned (newPtr, middle) ∧
      (newPtr = 0 ∧ heap' = middle ∨
        newPtr ≠ 0 ∧ heap' = myFree { middle with
          mem := copy middle.mem newPtr ptr
            (min size (blockSize middle.mem (sub64 ptr sizeofBlock))) } ptr) := by
  simp only [myRealloc, hptr, hsize, if_false] at hcall
  cases hinner : myMalloc host depth heap size with
  | exited => simp [hinner] at hcall
  | running => simp [hinner] at hcall
  | returned result =>
      obtain ⟨newPtr', middle⟩ := result
      simp only [hinner] at hcall
      by_cases hnull : newPtr' = 0
      · simp only [hnull, if_true, Outcome.returned.injEq, Prod.mk.injEq] at hcall
        obtain ⟨rfl, rfl⟩ := hcall
        exact ⟨middle, by rw [hnull], .inl ⟨rfl, rfl⟩⟩
      · simp only [hnull, if_false, Outcome.returned.injEq, Prod.mk.injEq] at hcall
        obtain ⟨rfl, rfl⟩ := hcall
        have hmin : ∀ old, (if size < old then size else old) = min size old := by
          intro old
          split <;> omega
        exact ⟨middle, rfl, .inr ⟨hnull, by rw [hmin]⟩⟩

theorem myRealloc_pools {depth ptr size newPtr : Nat} (hptr : ptr ≠ 0) (hsize : size ≠ 0)
    (hcall : myRealloc host depth heap ptr size = .returned (newPtr, heap')) :
    ∃ middle, myMalloc host depth heap size = .returned (newPtr, middle) ∧
      heap'.regions = middle.regions := by
  obtain ⟨middle, hinner, hrest⟩ := myRealloc_returned hptr hsize hcall
  refine ⟨middle, hinner, ?_⟩
  cases hrest with
  | inl hnull => rw [hnull.2]
  | inr hcopied => rw [hcopied.2, myFree_regions]

theorem myRealloc_regions {depth a size ptr block : Nat} (hsize : size ≠ 0)
    (hfirst : heap.firstFit size = some block)
    (hcall : myRealloc host depth heap (a + 16) size = .returned (ptr, heap')) :
    heap'.regions = heap.regions := by
  obtain ⟨middle, hinner, hsame⟩ := myRealloc_pools (Nat.succ_ne_zero _) hsize hcall
  rw [hsame, (myMalloc_firstFit hfirst hinner).2, serve_regions]

structure NewPool (heap : Heap) (size : Nat) : Prop where
  wf : WellFormed heap
  pool : heap.memoryPool ≠ 0
  chain : heap.chain = [heap.memoryPool]
  grows : heap.GrowsSafely size

theorem new_pool_spec (hostOk : HostOk host) (h : WellFormed heap) {poolSize size : Nat}
    (hmin : 32 ≤ poolSize)
    (hinit : initializeMemoryPool host heap poolSize = some heap') :
    NewPool heap' size ∧
    (∀ a ∈ heap.headers, a ∈ heap'.headers ∧
      blockSize heap'.mem a = blockSize heap.mem a) ∧
    heap'.memoryPool ∉ heap.headers := by
  obtain ⟨hwf, hfresh, hpool, hsize, hnext, hold⟩ :=
    initialize_spec hostOk h (by omega) hinit
  have hnull : heap'.memoryPool ≠ 0 := by
    have := hwf.header_pos hpool
    omega
  have hchain := chain_single hnull hnext
  refine ⟨⟨hwf, hnull, hchain, ?_⟩, hold, hfresh⟩
  intro _ last hlast
  rw [hchain, List.getLast?_singleton, Option.some.injEq] at hlast
  rw [← hlast, hsize]
  omega

/-- A returning `my_malloc` hands out the payload of one block `c` that is large
enough. `c` is the first fit of the old chain or lies in a new pool, and no
other block changes its size. -/
structure Served (heap heap' : Heap) (size ptr c : Nat) : Prop where
  wf : WellFormed heap'
  mem : c ∈ heap'.headers
  ptr_eq : ptr = c + 16
  fits : size ≤ blockSize heap'.mem c
  first : c ∈ heap.headers → heap.firstFit size = some c
  old : ∀ a ∈ heap.headers, a ∈ heap'.headers ∧
    (a ≠ c → blockSize heap'.mem a = blockSize heap.mem a)

theorem served_from (h : WellFormed heap) {size c : Nat}
    (hfirst : heap.firstFit size = some c) :
    Served heap (serve heap c size) size (add64 c sizeofBlock) c := by
  obtain ⟨hchain, hfits⟩ := firstFit_some hfirst
  have hc := h.chain_headers c hchain
  obtain ⟨hwf, hsize, hold⟩ := serve_spec h hc hfits
  have hend := h.header_end hc
  have hext := extent_ge heap.mem c
  exact ⟨hwf, (hold c hc).1, add64_eq (by simp only [sizeofBlock]; omega), hsize,
    fun _ => hfirst, hold⟩

theorem served_after_grow {next : Heap} {size ptr c : Nat}
    (hold : ∀ a ∈ heap.headers, a ∈ next.headers ∧
      blockSize next.mem a = blockSize heap.mem a)
    (hfresh : next.memoryPool ∉ heap.headers) (hchain : next.chain = [next.memoryPool])
    (h : Served next heap' size ptr c) : Served heap heap' size ptr c := by
  refine ⟨h.wf, h.mem, h.ptr_eq, h.fits, ?_, ?_⟩
  · intro hc
    have hmem := (firstFit_some (h.first (hold c hc).1)).1
    rw [hchain, List.mem_singleton] at hmem
    rw [hmem] at hc
    exact absurd hc hfresh
  · intro a ha
    obtain ⟨hnew, hkeep⟩ := h.old a (hold a ha).1
    exact ⟨hnew, fun hne => (hkeep hne).trans (hold a ha).2⟩

theorem allocate_spec (hostOk : HostOk host) (h : WellFormed heap) {size ptr : Nat}
    {retry : Heap → Outcome (Nat × Heap)} (hpool : heap.memoryPool ≠ 0)
    (hgrow : heap.GrowsSafely size)
    (hretry : ∀ grown, WellFormed grown → grown.GrowsSafely size →
      retry grown = .returned (ptr, heap') → ∃ c, Served grown heap' size ptr c)
    (hcall : allocate host retry heap size = .returned (ptr, heap')) :
    ∃ c, Served heap heap' size ptr c := by
  cases hsearch : search heap.mem size wordSize heap.memoryPool 0 with
  | endless => simp [allocate, hsearch] at hcall
  | found current =>
      simp only [allocate, hsearch, Outcome.returned.injEq, Prod.mk.injEq] at hcall
      obtain ⟨rfl, rfl⟩ := hcall
      exact ⟨current, served_from h ((search_found_iff _ _ _ _ _ _).mp hsearch)⟩
  | exhausted previous =>
      obtain ⟨hnone, hlast⟩ := search_exhausted _ hsearch
      obtain ⟨last, hgetLast⟩ := chain_getLast hpool
      have hprev : previous = last := by
        rw [hlast, show chainFrom heap.mem wordSize heap.memoryPool = heap.chain from rfl,
          hgetLast, Option.getD_some]
      subst hprev
      have hmem := h.chain_headers previous (List.mem_of_getLast? hgetLast)
      have hnull : previous ≠ 0 := by
        have := h.header_pos hmem
        omega
      have hlarge := hgrow hnone previous hgetLast
      have hbound := h.size_lt hmem
      have hdouble : mul64 (blockSize heap.mem previous) 2 =
          blockSize heap.mem previous * 2 := mul64_eq (by omega)
      simp only [allocate, hsearch, hnull, if_false, hdouble] at hcall
      cases hinit : initializeMemoryPool host heap (blockSize heap.mem previous * 2) with
      | none => simp [hinit] at hcall
      | some grown =>
          simp only [hinit] at hcall
          obtain ⟨hnew, hold, hfresh⟩ := new_pool_spec hostOk h (by omega) hinit
          obtain ⟨c, hserved⟩ := hretry grown hnew.wf hnew.grows hcall
          exact ⟨c, served_after_grow hold hfresh hnew.chain hserved⟩

theorem myMalloc_spec (hostOk : HostOk host) (h : WellFormed heap) {depth size ptr : Nat}
    (hgrow : heap.GrowsSafely size)
    (hcall : myMalloc host depth heap size = .returned (ptr, heap')) :
    ∃ c, Served heap heap' size ptr c := by
  induction depth generalizing heap with
  | zero => simp [myMalloc] at hcall
  | succ depth ih =>
      have hretry : ∀ grown, WellFormed grown → grown.GrowsSafely size →
          myMalloc host depth grown size = .returned (ptr, heap') →
          ∃ c, Served grown heap' size ptr c := fun grown hwf hgrows hret => ih hwf hgrows hret
      by_cases hpool : heap.memoryPool = 0
      · simp only [myMalloc, hpool, if_true] at hcall
        cases hinit : initializeMemoryPool host heap defaultSize with
        | none => simp [hinit] at hcall
        | some start =>
            simp only [hinit] at hcall
            obtain ⟨hnew, hold, hfresh⟩ := new_pool_spec hostOk h (by decide) hinit
            obtain ⟨c, hserved⟩ := allocate_spec hostOk hnew.wf hnew.pool hnew.grows hretry hcall
            exact ⟨c, served_after_grow hold hfresh hnew.chain hserved⟩
      · simp only [myMalloc, hpool, if_false] at hcall
        exact allocate_spec hostOk h hpool hgrow hretry hcall

/-- Writing only to payload bytes of `c` changes no header. -/
theorem WellFormed.payload_bytes (h : WellFormed heap) {c : Nat} (hc : c ∈ heap.headers)
    (mem : Bytes) (same : ∀ x, x < c + 16 ∨ c + 16 + blockSize heap.mem c ≤ x →
      mem x = heap.mem x) :
    ∀ a ∈ heap.headers, ∀ x, a ≤ x → x < a + 16 → mem x = heap.mem x := by
  intro a ha x h1 h2
  by_cases hac : a = c
  · exact same x (by omega)
  · have := h.apart ha hc hac
    exact same x (by omega)

/-- So does the copy into a new block. -/
theorem WellFormed.write_payload (h : WellFormed heap) {c : Nat} (hc : c ∈ heap.headers)
    (mem : Bytes) (same : ∀ x, x < c + 16 ∨ c + 16 + blockSize heap.mem c ≤ x →
      mem x = heap.mem x) :
    WellFormed { heap with mem := mem } ∧
    ∀ a ∈ heap.headers, blockSize mem a = blockSize heap.mem a := by
  have hbytes := h.payload_bytes hc mem same
  exact ⟨h.congr hbytes, fun a ha => (header_congr (hbytes a ha)).1⟩

/-- Later changes that keep every header and every size keep what was served. -/
theorem Served.keep {later : Heap} {size ptr c : Nat} (h : Served heap heap' size ptr c)
    (hwf : WellFormed later) (hheaders : later.headers = heap'.headers)
    (hsizes : ∀ a ∈ heap'.headers, blockSize later.mem a = blockSize heap'.mem a) :
    Served heap later size ptr c where
  wf := hwf
  mem := by
    rw [hheaders]
    exact h.mem
  ptr_eq := h.ptr_eq
  fits := by
    rw [hsizes c h.mem]
    exact h.fits
  first := h.first
  old a ha := by
    obtain ⟨hmem, hkeep⟩ := h.old a ha
    rw [hheaders, hsizes a hmem]
    exact ⟨hmem, hkeep⟩

/-- A returning `my_realloc` of the block `a` serves the request as `my_malloc`
does; the copy stays inside the block served. -/
theorem myRealloc_spec (hostOk : HostOk host) (h : WellFormed heap)
    {depth a size ptr : Nat} (ha : a ∈ heap.headers) (hsize : size ≠ 0)
    (hgrow : heap.GrowsSafely size)
    (hcall : myRealloc host depth heap (a + 16) size = .returned (ptr, heap')) :
    ∃ c, Served heap heap' size ptr c := by
  obtain ⟨middle, hinner, hrest⟩ := myRealloc_returned (Nat.succ_ne_zero _) hsize hcall
  obtain ⟨c, hserved⟩ := myMalloc_spec hostOk h hgrow hinner
  cases hrest with
  | inl hnull =>
      have := hserved.ptr_eq
      omega
  | inr hcopied =>
      obtain ⟨-, rfl⟩ := hcopied
      have hcopy := Nat.min_le_left size (blockSize middle.mem (sub64 (a + 16) sizeofBlock))
      generalize min size _ = copySize at hcopy ⊢
      have ha' := (hserved.old a ha).1
      have hfits := hserved.fits
      obtain ⟨hwf, hsizes⟩ := hserved.wf.write_payload hserved.mem
        (copy middle.mem ptr (a + 16) copySize) fun x hx =>
          copy_frame (by rw [hserved.ptr_eq]; omega)
      rw [myFree_block hwf ha']
      refine ⟨c, hserved.keep (hwf.unlink ha') rfl ?_⟩
      intro b hb
      rw [← hsizes b hb]
      by_cases hba : b = a
      · rw [hba]
        exact blockSize_setNext
      · exact (hwf.other_headers ha' hb hba fun x hx => setNext_frame (by
          have := extent_ge (copy middle.mem ptr (a + 16) copySize) a
          simp only at hx
          omega)).1

end LinuxTraining.Allocator
