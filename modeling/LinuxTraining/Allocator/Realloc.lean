import LinuxTraining.Allocator.Growth
import LinuxTraining.Allocator.PoolTiling

/-!
What `my_realloc` does to the bytes of the blocks. All that a call of `my_malloc` writes are
headers, so the payloads are as they were before when the copy is made, and the copy stays in
the block that serves the request.
-/
namespace LinuxTraining.Allocator
open Memory

/-- A call that begins with `heap` takes its block from the chain of `served`: of `heap`
itself, or after it has made pools. -/
inductive ServedFrom (host : Host) (size : Nat) : Heap → Heap → Prop where
  | here {heap : Heap} {c : Nat} (fits : heap.firstFit size = some c) :
      ServedFrom host size heap heap
  | first {heap start served : Heap} (null : heap.memoryPool = 0)
      (init : initializeMemoryPool host heap defaultSize = some start)
      (rest : ServedFrom host size start served) : ServedFrom host size heap served
  | grown {heap next served : Heap} {last : Nat} (none : heap.firstFit size = none)
      (end_block : heap.chain.getLast? = some last)
      (init : initializeMemoryPool host heap (mul64 (blockSize heap.mem last) 2) = some next)
      (rest : ServedFrom host size next served) : ServedFrom host size heap served

def SamePayloads (mem : Bytes) (heap : Heap) : Prop :=
  ∀ x, (∀ a ∈ heap.headers, x < a ∨ a + 16 ≤ x) → heap.mem x = mem x

variable {heap next heap' served : Heap} {host : Host} {size : Nat}

theorem initialize_mem (hinit : initializeMemoryPool host heap size = some heap') :
    heap'.mem = setNext (setSize heap.mem heap'.memoryPool (sub64 size sizeofBlock))
      heap'.memoryPool 0 := by
  simp only [initializeMemoryPool] at hinit
  split at hinit
  · cases hinit
  · rw [← Option.some.inj hinit]

theorem initialize_payloads (hinit : initializeMemoryPool host heap size = some heap') :
    SamePayloads heap.mem heap' := by
  intro x hx
  have hpool := hx heap'.memoryPool (by
    rw [(initialize_regions hinit).2.1]
    exact List.mem_cons_self)
  rw [initialize_mem hinit, setNext_frame hpool, setSize_frame hpool]

theorem SamePayloads.trans {mem : Bytes} (h : SamePayloads mem next)
    (hmore : SamePayloads next.mem heap') (hheaders : ∀ a ∈ next.headers, a ∈ heap'.headers) :
    SamePayloads mem heap' := fun x hx =>
  (hmore x hx).trans (h x fun a ha => hx a (hheaders a ha))

theorem serve_payloads (h : WellFormed heap) {c : Nat} (hc : c ∈ heap.headers)
    (hfits : size ≤ blockSize heap.mem c) :
    SamePayloads heap.mem (serve heap c size) ∧
      ∀ a ∈ heap.headers, a ∈ (serve heap c size).headers := by
  cases serve_cases h hc hfits with
  | inl hwhole =>
      rw [hwhole.1]
      exact ⟨fun x _ => rfl, fun a ha => ha⟩
  | inr hsplit =>
      rw [hsplit.2]
      have hsize := h.size_lt hc
      have hend := h.header_end hc
      simp only [extent, sizeofBlock] at hend
      refine ⟨fun x hx => ?_, fun a ha => List.mem_cons_of_mem _ ha⟩
      obtain ⟨-, -, -, -, hframe⟩ := cutMem_spec heap.mem c (c + 16 + size) size
        (blockSize heap.mem c - size - 16) (blockNext heap.mem c) (by omega) (by omega)
        (by omega) (load64_lt _ _) (by omega)
      exact hframe x (hx c (List.mem_cons_of_mem _ hc)) (hx _ List.mem_cons_self)

theorem grown_payloads {last : Nat} (hinit : initializeMemoryPool host heap last = some next)
    (hrest : SamePayloads next.mem heap' ∧ ∀ a ∈ next.headers, a ∈ heap'.headers) :
    SamePayloads heap.mem heap' ∧ ∀ a ∈ heap.headers, a ∈ heap'.headers := by
  refine ⟨(initialize_payloads hinit).trans hrest.1 hrest.2, fun a ha => hrest.2 a ?_⟩
  rw [(initialize_regions hinit).2.1]
  exact List.mem_cons_of_mem _ ha

theorem pooled_payloads (hostOk : HostOk host) {depth ptr : Nat} (h : WellFormed heap)
    (hpool : heap.memoryPool ≠ 0) (hgrow : heap.GrowsSafely size)
    (hcall : myMalloc host depth heap size = .returned (ptr, heap')) :
    SamePayloads heap.mem heap' ∧ ∀ a ∈ heap.headers, a ∈ heap'.headers := by
  induction depth generalizing heap with
  | zero => cases hcall
  | succ depth ih =>
      cases search_cases h hpool size with
      | inl hfound =>
          obtain ⟨c, hfirst, -⟩ := hfound
          rw [myMalloc_found h hfirst, Outcome.returned.injEq, Prod.mk.injEq] at hcall
          obtain ⟨hchain, hfits⟩ := firstFit_some hfirst
          rw [← hcall.2]
          exact serve_payloads h (h.chain_headers c hchain) hfits
      | inr hexhausted =>
          obtain ⟨last, hnone, hlast, -⟩ := hexhausted
          have hlarge := hgrow hnone last hlast
          rw [myMalloc_grows h hnone hlast] at hcall
          cases hinit : initializeMemoryPool host heap (blockSize heap.mem last * 2) with
          | none =>
              rw [hinit] at hcall
              cases hcall
          | some next =>
              rw [hinit] at hcall
              obtain ⟨hnew, -, -⟩ := new_pool_spec hostOk h (by omega) hinit
              exact grown_payloads hinit (ih hnew.wf hnew.pool hnew.grows hcall)

/-- A call writes nothing but headers. -/
theorem myMalloc_payloads (hostOk : HostOk host) {depth ptr : Nat} (h : WellFormed heap)
    (hgrow : heap.GrowsSafely size)
    (hcall : myMalloc host depth heap size = .returned (ptr, heap')) :
    SamePayloads heap.mem heap' ∧ ∀ a ∈ heap.headers, a ∈ heap'.headers := by
  by_cases hnull : heap.memoryPool = 0
  · cases depth with
    | zero => cases hcall
    | succ depth =>
        rw [myMalloc_first hnull] at hcall
        cases hinit : initializeMemoryPool host heap defaultSize with
        | none =>
            rw [hinit] at hcall
            cases hcall
        | some start =>
            rw [hinit] at hcall
            obtain ⟨hnew, -, -⟩ := new_pool_spec hostOk h (by decide) hinit
            exact grown_payloads hinit (pooled_payloads hostOk hnew.wf hnew.pool hnew.grows hcall)
  · exact pooled_payloads hostOk h hnull hgrow hcall

theorem initialize_block (hinit : initializeMemoryPool host heap size = some heap') :
    blockSize heap'.mem heap'.memoryPool = sub64 size sizeofBlock ∧
      blockNext heap'.mem heap'.memoryPool = 0 := by
  have hsub : sub64 size sizeofBlock < 2 ^ 64 := Nat.mod_lt _ (by decide)
  rw [initialize_mem hinit, blockSize_setNext, blockSize_setSize hsub,
    blockNext_setNext (by decide)]
  exact ⟨rfl, rfl⟩

theorem ServedFrom.fits (h : ServedFrom host size heap served) :
    ∃ c, served.firstFit size = some c := by
  induction h with
  | here hfits => exact ⟨_, hfits⟩
  | first _ _ _ ih => exact ih
  | grown _ _ _ _ ih => exact ih

theorem ServedFrom.size_lt (h : ServedFrom host size heap served) (hwf : WellFormed served) :
    size < 2 ^ 63 - 16 := by
  obtain ⟨c, hfirst⟩ := h.fits
  obtain ⟨hchain, hfits⟩ := firstFit_some hfirst
  exact Nat.lt_of_le_of_lt hfits (hwf.size_lt (hwf.chain_headers c hchain))

theorem ServedFrom.pool_room {poolSize : Nat}
    (hinit : initializeMemoryPool host heap poolSize = some next)
    (h : ServedFrom host size next served) (hwf : WellFormed served) : 16 ≤ poolSize := by
  by_contra hroom
  have hsize := h.size_lt hwf
  obtain ⟨hblock, hnext⟩ := initialize_block hinit
  obtain ⟨-, hheaders, hnull⟩ := initialize_regions hinit
  have hwrapped : 2 ^ 63 ≤ blockSize next.mem next.memoryPool := by
    rw [hblock]
    simp only [sub64, wordSize, sizeofBlock]
    omega
  have hfirst : next.firstFit size = some next.memoryPool := by
    rw [Heap.firstFit, chain_single hnull hnext]
    exact List.find?_cons_of_pos (decide_eq_true (by omega))
  cases h with
  | here _ =>
      have hbound := hwf.size_lt (a := next.memoryPool) (by
        rw [hheaders]
        exact List.mem_cons_self)
      omega
  | first hzero _ _ => exact hnull hzero
  | grown hnone _ _ _ =>
      rw [hfirst] at hnone
      cases hnone

theorem ServedFrom.growsSafely (hostOk : HostOk host) (h : ServedFrom host size heap served)
    (hwf : WellFormed served) (hheap : WellFormed heap) : heap.GrowsSafely size := by
  induction h with
  | here hfits =>
      intro hnone
      rw [hfits] at hnone
      cases hnone
  | first hzero _ _ _ =>
      intro _ last hlast
      rw [chain_null hzero] at hlast
      cases hlast
  | @grown heap next served last hnone hend hinit hrest ih =>
      intro _ last' hlast'
      obtain rfl : last' = last := Option.some.inj (hlast'.symm.trans hend)
      have hmem := hheap.chain_headers last' (List.mem_of_getLast? hend)
      have hbound := hheap.size_lt hmem
      rw [mul64_eq (by omega)] at hinit
      have hroom := hrest.pool_room hinit hwf
      obtain ⟨hnext, -, -, hblock, hlink, -⟩ := initialize_spec hostOk hheap hroom hinit
      have hchain := chain_single (initialize_regions hinit).2.2 hlink
      by_contra hsmall
      -- the next pool is smaller still, and does not serve the request either
      have hunfit : blockSize heap.mem last' < size := by
        have hall := List.find?_eq_none.mp hnone last' (List.mem_of_getLast? hend)
        simpa using hall
      have hnone' : next.firstFit size = none := by
        rw [Heap.firstFit, hchain]
        exact List.find?_eq_none.mpr fun b hb => by
          rw [List.mem_singleton] at hb
          simp only [hb, hblock, decide_eq_true_eq]
          omega
      have hgrows := ih hwf hnext hnone' next.memoryPool (by rw [hchain, List.getLast?_singleton])
      omega

theorem WellFormed.payload_off_headers (h : WellFormed heap) {a x : Nat} (ha : a ∈ heap.headers)
    (hlow : a + 16 ≤ x) (hhigh : x < a + 16 + blockSize heap.mem a) :
    ∀ d ∈ heap.headers, x < d ∨ d + 16 ≤ x := by
  intro d hd
  by_cases hda : d = a
  · omega
  · have := h.apart hd ha hda
    omega

structure Copied (heap heap' : Heap) (b size q : Nat) : Prop where
  wf : WellFormed heap'
  served : ∃ c, Served heap heap' size q c
  contents : ∀ i, i < min (blockSize heap.mem b) size →
    heap'.mem (q + i) = heap.mem (b + 16 + i)
  others : ∀ x, (∀ a ∈ heap'.headers, x < a ∨ a + 16 ≤ x) → (x < q ∨ q + size ≤ x) →
    heap'.mem x = heap.mem x

theorem myRealloc_contents (hostOk : HostOk host) (h : WellFormed heap) {depth b q : Nat}
    (hb : b ∈ heap.headers) (hsize : size ≠ 0) (hgrow : heap.GrowsSafely size)
    (hcall : myRealloc host depth heap (b + 16) size = .returned (q, heap')) :
    Copied heap heap' b size q := by
  obtain ⟨c, hfinal⟩ := myRealloc_spec hostOk h hb hsize hgrow hcall
  obtain ⟨middle, hinner, hrest⟩ := myRealloc_returned (Nat.succ_ne_zero _) hsize hcall
  obtain ⟨c', hserved⟩ := myMalloc_spec hostOk h hgrow hinner
  obtain ⟨hpayloads, -⟩ := myMalloc_payloads hostOk h hgrow hinner
  have hq := hserved.ptr_eq
  obtain ⟨hmem, hkeep⟩ := hserved.old b hb
  have hfits := hserved.fits
  have hheap := (hrest.resolve_left fun hnull => by omega).2
  generalize hold : blockSize middle.mem b = old at *
  rw [h.header_of hb, hold] at hheap
  obtain ⟨hwf, -⟩ := hserved.wf.write_payload hserved.mem
    (copy middle.mem q (b + 16) (min size old)) fun x hx => copy_frame (by omega)
  rw [myFree_block hwf hmem] at hheap
  have hheaders : heap'.headers = middle.headers := by rw [hheap]
  have hmove : ∀ x, (x < b ∨ b + 16 ≤ x) →
      heap'.mem x = copy middle.mem q (b + 16) (min size old) x := fun x hx => by
    rw [hheap]
    exact setNext_frame hx
  refine ⟨hfinal.wf, ⟨c, hfinal⟩, fun i hi => ?_, fun x hx hoff => ?_⟩
  · -- the copy reaches the byte, which `my_malloc` has not written
    have hi' : i < min size old := by
      by_cases hbc : b = c'
      · rw [hbc] at hold
        omega
      · rw [hkeep hbc] at hold
        omega
    have hsource := hpayloads (b + 16 + i)
      (hserved.wf.payload_off_headers hmem (by omega) (by omega))
    have htarget := hserved.wf.payload_off_headers hserved.mem (x := q + i) (by omega)
      (by omega) b hmem
    rw [hmove _ htarget, copy, if_pos (by omega), Nat.add_sub_cancel_left, hsource]
  · rw [hheaders] at hx
    rw [hmove x (hx b hmem), copy_frame (by omega), hpayloads x hx]

/-- After `my_realloc` the first bytes are those of the old block, every other block of the
heap is there with its size, and no byte of a payload is changed but in the block returned. -/
theorem realloc_keeps_contents (host : Host) (hostOk : HostOk host) (heap heap' served : Heap)
    (b n depth q : Nat) (wf : WellFormed heap) (hb : b ∈ heap.headers) (hn : n ≠ 0)
    (hserved : ServedFrom host n heap served) (hwf : WellFormed served)
    (hcall : myRealloc host depth heap (b + 16) n = .returned (q, heap')) :
    (∀ i, i < min (blockSize heap.mem b) n → heap'.mem (q + i) = heap.mem (b + 16 + i)) ∧
      (∀ d ∈ heap.headers, d + 16 ≠ q →
        d ∈ heap'.headers ∧ blockSize heap'.mem d = blockSize heap.mem d) ∧
      ∀ d ∈ heap'.headers, d + 16 ≠ q →
        ∀ x, d + 16 ≤ x → x < d + 16 + blockSize heap'.mem d → heap'.mem x = heap.mem x := by
  have hcopied := myRealloc_contents hostOk wf hb hn (hserved.growsSafely hostOk hwf wf) hcall
  obtain ⟨c, hfinal⟩ := hcopied.served
  have hq := hfinal.ptr_eq
  refine ⟨hcopied.contents, fun d hd hne => ?_, fun d hd hne x hlow hhigh => ?_⟩
  · obtain ⟨hmem, hkeep⟩ := hfinal.old d hd
    exact ⟨hmem, hkeep (by omega)⟩
  · have hoff := hcopied.wf.payload_off_headers hd hlow hhigh
    refine hcopied.others x hoff ?_
    have hapart := hcopied.wf.apart hd hfinal.mem (by omega)
    have hfits := hfinal.fits
    omega

/-- The only block of a pool is cut in place. -/
theorem realloc_keeps_contents_small :
    ∃ q heap', myRealloc onePoolHost 1 smallPool 8208 8 = .returned (q, heap') ∧
      ∀ i, i < 8 → heap'.mem (q + i) = smallPool.mem (8208 + i) := by
  have hwf : WellFormed smallPool :=
    (@InPool.created _ onePoolHost_ok zeroBytes 0 96 smallPool (by decide) rfl).wf
  have hback : comesBack (myRealloc onePoolHost 1 smallPool 8208 8) = true := by decide +kernel
  obtain ⟨⟨q, heap'⟩, hcall⟩ := comesBack_returned hback
  have hfirst : smallPool.firstFit 8 = some 8192 := by decide +kernel
  refine ⟨q, heap', hcall, fun i hi => ?_⟩
  refine (realloc_keeps_contents onePoolHost onePoolHost_ok smallPool heap' smallPool 8192 8 1 q
    hwf (by decide +kernel) (by decide) (.here hfirst) hwf hcall).1 i ?_
  have hsize : blockSize smallPool.mem 8192 = 80 := by decide +kernel
  rw [hsize]
  omega

end LinuxTraining.Allocator
