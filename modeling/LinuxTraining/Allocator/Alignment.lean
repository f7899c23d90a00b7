import LinuxTraining.Allocator.Freeing
import LinuxTraining.Allocator.Realloc

/-!
Where the headers stand. A block begins where the one before it in the pool ends, so that its
address is a multiple of `alignof(block_t)` when the sizes carved before are.
-/
namespace LinuxTraining.Allocator
open Memory Execution

def alignofBlock : Nat := 8

def searched (mem : Bytes) (size : Nat) : (turns block : Nat) → List Nat
  | 0, _ => []
  | turns + 1, block =>
      if block = 0 then []
      else if size ≤ blockSize mem block then [block]
      else block :: searched mem size turns (blockNext mem block)

def splitHeader (heap : Heap) (block size : Nat) : List Nat :=
  if add64 size sizeofBlock < blockSize heap.mem block then
    [add64 (add64 block sizeofBlock) size]
  else []

def allocateHeaders (host : Host) (retry : Heap → List Nat) (heap : Heap) (size : Nat) :
    List Nat :=
  searched heap.mem size wordSize heap.memoryPool ++
    match search heap.mem size wordSize heap.memoryPool 0 with
    | .found currentBlock => splitHeader heap currentBlock size
    | .endless => []
    | .exhausted previousBlock =>
        let poolSize :=
          if previousBlock = 0 then defaultSize
          else mul64 (blockSize heap.mem previousBlock) 2
        match initializeMemoryPool host heap poolSize with
        | none => []
        | some heap => heap.memoryPool :: retry heap

def myMallocHeaders (host : Host) : (depth : Nat) → Heap → (size : Nat) → List Nat
  | 0, _, _ => []
  | depth + 1, heap, size =>
      if heap.memoryPool = 0 then
        match initializeMemoryPool host heap defaultSize with
        | none => []
        | some heap => heap.memoryPool ::
            allocateHeaders host (fun heap => myMallocHeaders host depth heap size) heap size
      else allocateHeaders host (fun heap => myMallocHeaders host depth heap size) heap size

def myFreeHeaders (ptr : Nat) : List Nat :=
  if ptr = 0 then [] else [sub64 ptr sizeofBlock]

def myReallocHeaders (host : Host) (depth : Nat) (heap : Heap) (ptr size : Nat) : List Nat :=
  if ptr = 0 then myMallocHeaders host depth heap size
  else if size = 0 then myFreeHeaders ptr
  else
    myMallocHeaders host depth heap size ++
      match myMalloc host depth heap size with
      | .returned (newPtr, _) => if newPtr = 0 then [] else myFreeHeaders ptr
      | .exited | .running => []

def eventHeaders (host : Host) (s : Client) : Event → List Nat
  | .malloc size depth => myMallocHeaders host depth s.heap size
  | .free ptr => myFreeHeaders ptr
  | .realloc ptr size depth => myReallocHeaders host depth s.heap ptr size
  | .write _ _ => []

/-- The headers read or written and the addresses returned are multiples of the alignment. -/
def KeepsAlignment (host : Host) (s : Client) (event : Event) : Prop :=
  (∀ a ∈ eventHeaders host s event, alignofBlock ∣ a) ∧
    ∀ t, step host s event = some t → ∀ ptr ∈ t.returned, alignofBlock ∣ ptr

/-- Documented behaviour of host `malloc`: its objects begin at multiples of 16. -/
def HostAligned (host : Host) : Prop := ∀ regions size, 16 ∣ host regions size

/-- The size is a multiple of the alignment, or the block that serves the request is not
split. -/
def CutsAligned (host : Host) (heap : Heap) (size : Nat) : Prop :=
  alignofBlock ∣ size ∨ ∀ served c, ServedFrom host size heap served →
    served.firstFit size = some c → blockSize served.mem c ≤ size + sizeofBlock

def AsksAligned (host : Host) (s : Client) : Event → Prop
  | .malloc size _ => CutsAligned host s.heap size
  | .realloc ptr size _ => ptr = 0 ∨ size ≠ 0 → CutsAligned host s.heap size
  | .free _ | .write _ _ => True

variable {heap heap' next served : Heap} {host : Host} {mem : Bytes} {size ptr a c : Nat}

def AllAligned (heap : Heap) : Prop := ∀ a ∈ heap.headers, alignofBlock ∣ a

theorem searched_chain {turns block : Nat} (h : a ∈ searched mem size turns block) :
    a ∈ chainFrom mem turns block := by
  induction turns generalizing block with
  | zero => exact absurd h List.not_mem_nil
  | succ turns ih =>
      by_cases hnull : block = 0
      · rw [searched, if_pos hnull] at h
        exact absurd h List.not_mem_nil
      · rw [searched, if_neg hnull] at h
        rw [chainFrom, if_neg hnull]
        split at h
        · rw [List.mem_singleton.mp h]
          exact List.mem_cons_self
        · cases List.mem_cons.mp h with
          | inl hfirst =>
              rw [hfirst]
              exact List.mem_cons_self
          | inr hrest => exact List.mem_cons_of_mem _ (ih hrest)

theorem myMallocHeaders_found (hfirst : heap.firstFit size = some c) (depth : Nat) :
    myMallocHeaders host (depth + 1) heap size =
      searched heap.mem size wordSize heap.memoryPool ++ splitHeader heap c size := by
  have hsearch := (search_found_iff heap.mem size wordSize heap.memoryPool 0 c).mpr hfirst
  simp only [myMallocHeaders, firstFit_pool hfirst, if_false, allocateHeaders, hsearch]

theorem myMallocHeaders_grows (h : WellFormed heap) {last : Nat}
    (hnone : heap.firstFit size = none) (hlast : heap.chain.getLast? = some last)
    (hinit : initializeMemoryPool host heap (blockSize heap.mem last * 2) = some next)
    (depth : Nat) :
    myMallocHeaders host (depth + 1) heap size =
      searched heap.mem size wordSize heap.memoryPool ++
        next.memoryPool :: myMallocHeaders host depth next size := by
  obtain ⟨hpool, hnull, hsearch, hdouble⟩ := search_last h hnone hlast
  simp only [myMallocHeaders, hpool, if_false, allocateHeaders, hsearch, hnull, hdouble, hinit]

theorem myMallocHeaders_first (hnull : heap.memoryPool = 0)
    (hinit : initializeMemoryPool host heap defaultSize = some next) (depth : Nat) :
    myMallocHeaders host (depth + 1) heap size =
      next.memoryPool :: myMallocHeaders host (depth + 1) next size := by
  simp only [myMallocHeaders, hnull, if_true, hinit, (initialize_regions hinit).2.2, if_false]

structure Carved (host : Host) (heap heap' : Heap) (size ptr : Nat) (headers : List Nat)
    (served : Heap) (c : Nat) : Prop where
  from_heap : ServedFrom host size heap served
  wf : WellFormed served
  fits : served.firstFit size = some c
  ptr_eq : ptr = c + 16
  heap_eq : heap' = serve served c size
  touched : ∀ a ∈ headers, a ∈ heap'.headers
  written : ∀ a ∈ heap'.headers, a ∈ heap.headers ∨ a ∈ headers
  pools : ∀ a ∈ served.headers, a ∈ heap.headers ∨ ∃ regions poolSize, a = host regions poolSize

theorem serve_headers (heap : Heap) (c size : Nat) :
    (serve heap c size).headers = splitHeader heap c size ++ heap.headers := by
  simp only [serve, splitHeader]
  split <;> rfl

theorem mem_splitHeader (h : WellFormed heap) (hfirst : heap.firstFit size = some c) :
    a ∈ splitHeader heap c size ↔ a = c + 16 + size ∧ size + 16 < blockSize heap.mem c := by
  obtain ⟨hchain, hfits⟩ := firstFit_some hfirst
  have hc := h.chain_headers c hchain
  rw [splitHeader, (h.split_no_wrap hc hfits).1, h.new_block_addr hc hfits]
  split
  · rename_i hlarge
    rw [List.mem_singleton]
    exact ⟨fun hsame => ⟨hsame, hlarge⟩, fun hsame => hsame.1⟩
  · rename_i hsmall
    exact ⟨fun hmem => absurd hmem List.not_mem_nil, fun hcut => absurd hcut.2 hsmall⟩

theorem Carved.found (h : WellFormed heap) (hfirst : heap.firstFit size = some c) :
    Carved host heap (serve heap c size) size (c + 16)
      (searched heap.mem size wordSize heap.memoryPool ++ splitHeader heap c size) heap c := by
  refine ⟨.here hfirst, h, hfirst, rfl, rfl, fun a ha => ?_, fun a ha => ?_, fun a => .inl⟩
  · rw [serve_headers]
    cases List.mem_append.mp ha with
    | inl hread => exact List.mem_append_right _ (h.chain_headers a (searched_chain hread))
    | inr hsplit => exact List.mem_append_left _ hsplit
  · rw [serve_headers] at ha
    cases List.mem_append.mp ha with
    | inl hsplit => exact .inr (List.mem_append_right _ hsplit)
    | inr hold => exact .inl hold

theorem Carved.pool {poolSize : Nat} {headers before : List Nat} {served : Heap}
    (hfrom : ServedFrom host size next served → ServedFrom host size heap served)
    (hinit : initializeMemoryPool host heap poolSize = some next)
    (hbefore : ∀ a ∈ before, a ∈ heap.headers) (hsub : ∀ a ∈ next.headers, a ∈ heap'.headers)
    (h : Carved host next heap' size ptr headers served c) :
    Carved host heap heap' size ptr (before ++ next.memoryPool :: headers) served c := by
  have hheaders := (initialize_regions hinit).2.1
  have hhost : next.memoryPool = host heap.regions poolSize := by
    simp only [initializeMemoryPool] at hinit
    split at hinit
    · cases hinit
    · rw [← Option.some.inj hinit]
  refine ⟨hfrom h.from_heap, h.wf, h.fits, h.ptr_eq, h.heap_eq, fun a ha => ?_, fun a ha => ?_,
    fun a ha => ?_⟩
  · cases List.mem_append.mp ha with
    | inl hread =>
        apply hsub
        rw [hheaders]
        exact List.mem_cons_of_mem _ (hbefore a hread)
    | inr hrest =>
        cases List.mem_cons.mp hrest with
        | inl hpool =>
            apply hsub
            rw [hheaders, hpool]
            exact List.mem_cons_self
        | inr hlater => exact h.touched a hlater
  · cases h.written a ha with
    | inl hnext =>
        rw [hheaders] at hnext
        cases List.mem_cons.mp hnext with
        | inl hpool =>
            rw [hpool]
            exact .inr (List.mem_append_right _ List.mem_cons_self)
        | inr hold => exact .inl hold
    | inr hlater => exact .inr (List.mem_append_right _ (List.mem_cons_of_mem _ hlater))
  · cases h.pools a ha with
    | inl hnext =>
        rw [hheaders] at hnext
        cases List.mem_cons.mp hnext with
        | inl hpool => exact .inr ⟨heap.regions, poolSize, hpool.trans hhost⟩
        | inr hold => exact .inl hold
    | inr hhosted => exact .inr hhosted

theorem pooled_carved (hostOk : HostOk host) {depth : Nat} (h : Roomy heap)
    (hpool : heap.memoryPool ≠ 0) (hgrow : heap.GrowsEnough size)
    (hcall : myMalloc host depth heap size = .returned (ptr, heap')) :
    ∃ served c,
      Carved host heap heap' size ptr (myMallocHeaders host depth heap size) served c := by
  induction depth generalizing heap with
  | zero => cases hcall
  | succ depth ih =>
      cases search_cases h.wf hpool size with
      | inl hfound =>
          obtain ⟨c, hfirst, -⟩ := hfound
          rw [myMalloc_found h.wf hfirst, Outcome.returned.injEq, Prod.mk.injEq] at hcall
          obtain ⟨rfl, rfl⟩ := hcall
          rw [myMallocHeaders_found hfirst]
          exact ⟨heap, c, .found h.wf hfirst⟩
      | inr hexhausted =>
          obtain ⟨last, hnone, hlast, -⟩ := hexhausted
          have hlarge := hgrow hnone last hlast
          simp only [sizeofBlock] at hlarge
          have hdouble := (search_last h.wf hnone hlast).2.2.2
          rw [myMalloc_grows h.wf hnone hlast] at hcall
          cases hinit : initializeMemoryPool host heap (blockSize heap.mem last * 2) with
          | none =>
              rw [hinit] at hcall
              cases hcall
          | some next =>
              rw [hinit] at hcall
              obtain ⟨hroomy, hnew, henough⟩ := h.grown hostOk (by omega) hinit
              obtain ⟨served, c, hcarved⟩ := ih hroomy hnew henough hcall
              rw [myMallocHeaders_grows h.wf hnone hlast hinit]
              refine ⟨served, c, hcarved.pool
                (.grown hnone hlast (by rw [hdouble]; exact hinit)) hinit
                (fun a ha => h.wf.chain_headers a (searched_chain ha)) ?_⟩
              exact (myMalloc_payloads hostOk hroomy.wf henough.safely hcall).2

/-- Every call of `my_malloc` that returns serves the request from one block. -/
theorem myMalloc_carved (hostOk : HostOk host) {depth : Nat} (h : Roomy heap)
    (hgrow : heap.GrowsEnough size)
    (hcall : myMalloc host depth heap size = .returned (ptr, heap')) :
    ∃ served c,
      Carved host heap heap' size ptr (myMallocHeaders host depth heap size) served c := by
  by_cases hnull : heap.memoryPool = 0
  · cases depth with
    | zero => cases hcall
    | succ depth =>
        rw [myMalloc_first hnull] at hcall
        cases hinit : initializeMemoryPool host heap defaultSize with
        | none =>
            rw [hinit] at hcall
            cases hcall
        | some start =>
            rw [hinit] at hcall
            obtain ⟨hroomy, hnew, henough⟩ := h.grown hostOk (by decide) hinit
            obtain ⟨served, c, hcarved⟩ := pooled_carved hostOk hroomy hnew henough hcall
            rw [myMallocHeaders_first hnull hinit]
            have hbefore : ∀ a ∈ ([] : List Nat), a ∈ heap.headers := fun a ha =>
              absurd ha List.not_mem_nil
            exact ⟨served, c, hcarved.pool (.first hnull hinit) hinit hbefore
              (myMalloc_payloads hostOk hroomy.wf henough.safely hcall).2⟩
  · exact pooled_carved hostOk h hnull hgrow hcall

theorem Carved.served_aligned {headers : List Nat} (hosts : HostAligned host)
    (h : Carved host heap heap' size ptr headers served c) (hheap : AllAligned heap) :
    AllAligned served := by
  intro a ha
  cases h.pools a ha with
  | inl hold => exact hheap a hold
  | inr hpool =>
      obtain ⟨regions, poolSize, rfl⟩ := hpool
      exact Nat.dvd_trans (by decide) (hosts regions poolSize)

/-- From a heap with aligned headers a call comes across aligned headers only, just when it
does not cut off a size that is no multiple of the alignment. -/
theorem Carved.aligned_iff {headers : List Nat} (hosts : HostAligned host)
    (h : Carved host heap heap' size ptr headers served c) (hheap : AllAligned heap) :
    (∀ a ∈ headers, alignofBlock ∣ a) ↔
      alignofBlock ∣ size ∨ blockSize served.mem c ≤ size + sizeofBlock := by
  have hserved := h.served_aligned hosts hheap
  have hc : alignofBlock ∣ c + 16 :=
    (Nat.dvd_add_right (hserved c (h.wf.chain_headers c (firstFit_some h.fits).1))).mpr (by decide)
  constructor
  · intro hall
    by_cases hcut : size + 16 < blockSize served.mem c
    · have hmem : c + 16 + size ∈ heap'.headers := by
        rw [h.heap_eq, serve_headers]
        exact List.mem_append_left _ ((mem_splitHeader h.wf h.fits).mpr ⟨rfl, hcut⟩)
      have hnew : alignofBlock ∣ c + 16 + size := by
        cases h.written _ hmem with
        | inl hold => exact hheap _ hold
        | inr htouched => exact hall _ htouched
      exact .inl ((Nat.dvd_add_right hc).mp hnew)
    · exact .inr (Nat.not_lt.mp hcut)
  · intro hkeeps a ha
    have hmem := h.touched a ha
    rw [h.heap_eq, serve_headers] at hmem
    cases List.mem_append.mp hmem with
    | inl hsplit =>
        obtain ⟨rfl, hcut⟩ := (mem_splitHeader h.wf h.fits).mp hsplit
        exact (Nat.dvd_add_right hc).mpr (hkeeps.resolve_right (Nat.not_le.mpr hcut))
    | inr hold => exact hserved a hold

theorem Carved.all_aligned {headers : List Nat}
    (h : Carved host heap heap' size ptr headers served c) (hheap : AllAligned heap)
    (hall : ∀ a ∈ headers, alignofBlock ∣ a) : AllAligned heap' := fun a ha => by
  cases h.written a ha with
  | inl hold => exact hheap a hold
  | inr htouched => exact hall a htouched

theorem firstFit_null (hnull : heap.memoryPool = 0) : heap.firstFit size = none := by
  rw [Heap.firstFit, chain_null hnull]
  rfl

theorem ServedFrom.unique (h : ServedFrom host size heap served)
    (h' : ServedFrom host size heap next) : served = next := by
  induction h with
  | here hfits =>
      cases h' with
      | here _ => rfl
      | first hnull _ _ =>
          rw [firstFit_null hnull] at hfits
          cases hfits
      | grown hnone _ _ _ =>
          rw [hnone] at hfits
          cases hfits
  | first hnull hinit _ ih =>
      cases h' with
      | here hfits =>
          rw [firstFit_null hnull] at hfits
          cases hfits
      | first _ hinit' hrest =>
          rw [Option.some.inj (hinit.symm.trans hinit')] at ih
          exact ih hrest
      | grown _ hend _ _ =>
          rw [chain_null hnull] at hend
          cases hend
  | grown hnone hend hinit _ ih =>
      cases h' with
      | here hfits =>
          rw [hnone] at hfits
          cases hfits
      | first hnull _ _ =>
          rw [chain_null hnull] at hend
          cases hend
      | grown _ hend' hinit' hrest =>
          rw [← Option.some.inj (hend.symm.trans hend')] at hinit'
          rw [Option.some.inj (hinit.symm.trans hinit')] at ih
          exact ih hrest

theorem Carved.cuts_iff {headers : List Nat}
    (h : Carved host heap heap' size ptr headers served c) :
    CutsAligned host heap size ↔
      alignofBlock ∣ size ∨ blockSize served.mem c ≤ size + sizeofBlock := by
  constructor
  · intro hcuts
    exact hcuts.imp_right fun hall => hall served c h.from_heap h.fits
  · intro hcuts
    refine hcuts.imp_right fun hsmall served' c' hfrom hfits => ?_
    obtain rfl := hfrom.unique h.from_heap
    rwa [Option.some.inj (hfits.symm.trans h.fits)]

theorem myMalloc_aligned (hostOk : HostOk host) (hosts : HostAligned host) {depth : Nat}
    (h : Roomy heap) (hheap : AllAligned heap) (hgrow : heap.GrowsEnough size)
    (hcall : myMalloc host depth heap size = .returned (ptr, heap')) :
    ((∀ a ∈ myMallocHeaders host depth heap size, alignofBlock ∣ a) ↔
      CutsAligned host heap size) ∧ (CutsAligned host heap size → AllAligned heap') := by
  obtain ⟨served, c, hcarved⟩ := myMalloc_carved hostOk h hgrow hcall
  have hiff := hcarved.aligned_iff hosts hheap
  rw [hcarved.cuts_iff]
  exact ⟨hiff, fun hcuts => hcarved.all_aligned hheap (hiff.mpr hcuts)⟩

structure AlignedClient (s : Client) : Prop where
  pooled : Pooled s
  heap : AllAligned s.heap

theorem AlignedClient.returned {s : Client} (h : AlignedClient s) :
    ∀ ptr ∈ s.returned, alignofBlock ∣ ptr ∧ alignofBlock ∣ sub64 ptr sizeofBlock := by
  intro ptr hptr
  obtain ⟨a, ha, rfl⟩ := h.pooled.returned ptr hptr
  rw [h.pooled.roomy.wf.header_of ha]
  exact ⟨(Nat.dvd_add_right (h.heap a ha)).mpr (by decide), h.heap a ha⟩

theorem AlignedClient.free {s : Client} (h : AlignedClient s) (hptr : ptr = 0 ∨ ptr ∈ s.returned) :
    (∀ a ∈ myFreeHeaders ptr, alignofBlock ∣ a) ∧ AllAligned (myFree s.heap ptr) := by
  by_cases hnull : ptr = 0
  · simp only [myFreeHeaders, myFree, if_pos hnull]
    exact ⟨fun a ha => absurd ha List.not_mem_nil, h.heap⟩
  · have hheader := (h.returned ptr (hptr.resolve_left hnull)).2
    simp only [myFreeHeaders, myFree, if_neg hnull]
    refine ⟨fun a ha => ?_, fun a ha => h.heap a ha⟩
    rw [List.mem_singleton.mp ha]
    exact hheader

theorem myFree_headers (heap : Heap) (ptr : Nat) : (myFree heap ptr).headers = heap.headers := by
  simp only [myFree]
  split <;> rfl

theorem AlignedClient.realloc (hostOk : HostOk host) (hosts : HostAligned host) {s : Client}
    {depth newPtr : Nat} (h : AlignedClient s) (hptr : ptr = 0 ∨ ptr ∈ s.returned)
    (hgrow : ptr = 0 ∨ size ≠ 0 → s.heap.GrowsEnough size)
    (hcall : myRealloc host depth s.heap ptr size = .returned (newPtr, heap)) :
    ((∀ a ∈ myReallocHeaders host depth s.heap ptr size, alignofBlock ∣ a) ↔
        (ptr = 0 ∨ size ≠ 0 → CutsAligned host s.heap size)) ∧
      ((ptr = 0 ∨ size ≠ 0 → CutsAligned host s.heap size) → AllAligned heap) := by
  obtain ⟨hheaders, hfreed⟩ := h.free hptr
  by_cases hnull : ptr = 0
  · simp only [myRealloc, hnull, if_true] at hcall
    simp only [myReallocHeaders, hnull, if_true, true_or, true_imp_iff]
    exact myMalloc_aligned hostOk hosts h.pooled.roomy h.heap (hgrow (.inl hnull)) hcall
  · by_cases hsize : size = 0
    · simp only [myRealloc, hnull, if_false, hsize, if_true, Outcome.returned.injEq,
        Prod.mk.injEq] at hcall
      simp only [myReallocHeaders, hnull, if_false, hsize, if_true, ne_eq, not_true, or_self,
        false_imp_iff, iff_true, ← hcall.2]
      exact ⟨hheaders, fun _ => hfreed⟩
    · obtain ⟨middle, hinner, hrest⟩ := myRealloc_returned hnull hsize hcall
      obtain ⟨hiff, haligned⟩ := myMalloc_aligned hostOk hosts h.pooled.roomy h.heap
        (hgrow (.inr hsize)) hinner
      have hsame : heap.headers = middle.headers := by
        cases hrest with
        | inl hrefused => rw [hrefused.2]
        | inr hcopied => rw [hcopied.2, myFree_headers]
      have hrelease : ∀ a ∈ (if newPtr = 0 then [] else myFreeHeaders ptr), alignofBlock ∣ a := by
        intro a ha
        split at ha
        · exact absurd ha List.not_mem_nil
        · exact hheaders a ha
      simp only [myReallocHeaders, hnull, if_false, hsize, hinner, List.mem_append, or_imp,
        forall_and, ne_eq, not_false_eq_true, or_true, true_imp_iff]
      refine ⟨⟨fun hall => hiff.mp hall.1, fun hcuts => ⟨hiff.mpr hcuts, hrelease⟩⟩,
        fun hcuts a ha => ?_⟩
      rw [hsame] at ha
      exact haligned hcuts a ha

/-- A step keeps the alignment just when it asks for an aligned cut, and so goes on. -/
theorem AlignedClient.step (hostOk : HostOk host) (hosts : HostAligned host) {s t : Client}
    {event : Event} (h : AlignedClient s) (hpasses : PassesReturned s event)
    (hgrows : Grows s event) (hrun : Allocator.step host s event = some t) :
    (KeepsAlignment host s event ↔ AsksAligned host s event) ∧
      (AsksAligned host s event → AlignedClient t) := by
  have hpooled := h.pooled.step hostOk s event t ⟨hpasses, hgrows⟩ hrun
  have hkeeps : (∀ a ∈ eventHeaders host s event, alignofBlock ∣ a) ∧ AllAligned t.heap →
      KeepsAlignment host s event := fun hall =>
    ⟨hall.1, fun t' ht' ptr hptr => by
      rw [← Option.some.inj (hrun.symm.trans ht')] at hptr
      exact ((AlignedClient.mk hpooled hall.2).returned ptr hptr).1⟩
  have hcall : ((∀ a ∈ eventHeaders host s event, alignofBlock ∣ a) ↔
      AsksAligned host s event) ∧ (AsksAligned host s event → AllAligned t.heap) := by
    cases event with
    | malloc size depth =>
        obtain ⟨ptr, heap, hcall, rfl⟩ := step_malloc hrun
        exact myMalloc_aligned hostOk hosts h.pooled.roomy h.heap hgrows hcall
    | free ptr =>
        simp only [Allocator.step, Option.some.injEq] at hrun
        obtain ⟨hheaders, hheap⟩ := h.free hpasses
        rw [← hrun]
        exact ⟨⟨fun _ => trivial, fun _ => hheaders⟩, fun _ => hheap⟩
    | realloc ptr size depth =>
        obtain ⟨newPtr, heap, hcall, ht⟩ := step_realloc hrun
        have hheap : t.heap = heap := by
          rw [ht]
          split <;> rfl
        rw [hheap]
        exact h.realloc hostOk hosts hpasses hgrows hcall
    | write addr byte =>
        simp only [Allocator.step, Option.some.injEq] at hrun
        rw [← hrun]
        exact ⟨⟨fun _ => trivial, fun _ a ha => absurd ha List.not_mem_nil⟩,
          fun _ a ha => h.heap a ha⟩
  refine ⟨⟨fun hall => hcall.1.mp hall.1, fun hasks => ?_⟩, fun hasks => ⟨hpooled, hcall.2 hasks⟩⟩
  exact hkeeps ⟨hcall.1.mpr hasks, hcall.2 hasks⟩

theorem AlignedClient.initial (mem : Bytes) : AlignedClient (initial mem) :=
  ⟨Pooled.initial mem, fun _ ha => absurd ha List.not_mem_nil⟩

/-- A run whose pools have room for their headers comes across aligned headers only, and
returns aligned addresses, exactly when every request that splits a block asks for a multiple of
the alignment. -/
theorem alignment_kept_iff (host : Host) (hostOk : HostOk host) (hosts : HostAligned host)
    (mem : Bytes) (events : List Event) (s : Client)
    (passes : Along (step host) PassesReturned (initial mem) events)
    (h : run (step host) (initial mem) events = some s) (hroom : RoomInAll s) :
    Along (step host) (KeepsAlignment host) (initial mem) events ↔
      Along (step host) (AsksAligned host) (initial mem) events := by
  refine (along_iff_along RoomInAll.before (I := AlignedClient) ?_ ?_ (.initial mem) passes h
    hroom).symm
  · intro s event t hs hpasses ht hrun
    exact (hs.step hostOk hosts hpasses (grows_of_room hostOk hs.pooled ht hrun) hrun).1.symm
  · intro s event t hs hpasses hasks ht hrun
    exact (hs.step hostOk hosts hpasses (grows_of_room hostOk hs.pooled ht hrun) hrun).2 hasks

theorem onePoolHost_aligned : HostAligned onePoolHost := by
  intro regions size
  rw [onePoolHost]
  split
  · decide
  · decide

/-- A split, and a reallocation in place that cuts the rest off. -/
theorem alignment_kept_iff_eight :
    Along (step onePoolHost) (KeepsAlignment onePoolHost) (initial zeroBytes)
      [.malloc 16 1, .realloc 8208 8 1] := by
  have hrun : (run (step onePoolHost) (initial zeroBytes) [.malloc 16 1, .realloc 8208 8 1]).map
      (fun s => decide (RoomInAll s)) = some true := by
    decide +kernel
  obtain ⟨s, hs, hroom⟩ := Option.map_eq_some_iff.mp hrun
  refine (alignment_kept_iff onePoolHost onePoolHost_ok onePoolHost_aligned zeroBytes _ s
    (by decide +kernel) hs (of_decide_eq_true hroom)).mpr (along_of_forall _ ?_)
  intro event hevent s'
  cases List.mem_cons.mp hevent with
  | inl hmalloc =>
      rw [hmalloc]
      exact .inl (by decide)
  | inr hrest =>
      rw [List.mem_singleton.mp hrest]
      exact fun _ => .inl (by decide)

/-- A request of one byte puts the next header right behind it. -/
theorem header_behind_one_byte :
    ¬ ∀ (host : Host), HostOk host → HostAligned host → ∀ (mem : Bytes) (events : List Event)
      (s : Client), Along (step host) Obeys (initial mem) events →
      Along (step host) Unshared (initial mem) events →
      run (step host) (initial mem) events = some s →
      Along (step host) (KeepsAlignment host) (initial mem) events := by
  intro hall
  have hrun : (run (step onePoolHost) (initial zeroBytes) [.malloc 1 1]).isSome := by
    decide +kernel
  obtain ⟨s, hs⟩ := Option.isSome_iff_exists.mp hrun
  have hkeeps := hall onePoolHost onePoolHost_ok onePoolHost_aligned zeroBytes _ s
    (by decide +kernel) (by decide +kernel) hs
  have hheaders : 8209 ∈ myMallocHeaders onePoolHost 1 (initial zeroBytes).heap 1 := by
    decide +kernel
  exact absurd (hkeeps.1.1 8209 hheaders) (by decide)

end LinuxTraining.Allocator
