import LinuxTraining.Allocator.Requests
import LinuxTraining.Library.Execution

/-!
A client of the allocator. `live` lists the pointers in use with the sizes
requested for them, `returned` every pointer handed out so far. A run is a
sequence of calls and of bytes the client writes.
-/
namespace LinuxTraining.Allocator
open Memory Execution

structure Client where
  heap : Heap
  live : List (Nat × Nat)
  returned : List Nat

/-- A call takes the number of recursive calls of `my_malloc` it may make. -/
inductive Event where
  | malloc (size depth : Nat)
  | free (ptr : Nat)
  | realloc (ptr size depth : Nat)
  | write (addr : Nat) (byte : UInt8)

/-- Before the first call: no pool, and memory with arbitrary contents. -/
def initial (mem : Bytes) : Client := ⟨⟨mem, 0, [], []⟩, [], []⟩

def release (live : List (Nat × Nat)) (ptr : Nat) : List (Nat × Nat) :=
  live.eraseP fun e => e.1 == ptr

def step (host : Host) (s : Client) : Event → Option Client
  | .malloc size depth =>
      match myMalloc host depth s.heap size with
      | .returned (ptr, heap) => some ⟨heap, (ptr, size) :: s.live, ptr :: s.returned⟩
      | _ => none
  | .free ptr => some ⟨myFree s.heap ptr, release s.live ptr, s.returned⟩
  | .realloc ptr size depth =>
      match myRealloc host depth s.heap ptr size with
      | .returned (newPtr, heap) =>
          if newPtr = 0 then some ⟨heap, release s.live ptr, s.returned⟩
          else some ⟨heap, (newPtr, size) :: release s.live ptr, newPtr :: s.returned⟩
      | _ => none
  | .write addr byte => some { s with heap := { s.heap with mem := store8 s.heap.mem addr byte } }

theorem step_malloc {host : Host} {s t : Client} {size depth : Nat}
    (h : step host s (.malloc size depth) = some t) :
    ∃ ptr heap, myMalloc host depth s.heap size = .returned (ptr, heap) ∧
      t = ⟨heap, (ptr, size) :: s.live, ptr :: s.returned⟩ := by
  cases hcall : myMalloc host depth s.heap size with
  | exited => simp [step, hcall] at h
  | running => simp [step, hcall] at h
  | returned result =>
      simp only [step, hcall, Option.some.injEq] at h
      exact ⟨result.1, result.2, rfl, h.symm⟩

theorem step_realloc {host : Host} {s t : Client} {ptr size depth : Nat}
    (h : step host s (.realloc ptr size depth) = some t) :
    ∃ newPtr heap, myRealloc host depth s.heap ptr size = .returned (newPtr, heap) ∧
      t = if newPtr = 0 then ⟨heap, release s.live ptr, s.returned⟩
        else ⟨heap, (newPtr, size) :: release s.live ptr, newPtr :: s.returned⟩ := by
  cases hcall : myRealloc host depth s.heap ptr size with
  | exited => simp [step, hcall] at h
  | running => simp [step, hcall] at h
  | returned result =>
      refine ⟨result.1, result.2, rfl, ?_⟩
      simp only [step, hcall] at h
      by_cases hnull : result.1 = 0
      · rw [if_pos hnull] at h ⊢
        exact (Option.some.inj h).symm
      · rw [if_neg hnull] at h ⊢
        exact (Option.some.inj h).symm

/-- The client asks for at least one byte, passes live pointers only and writes
inside the bytes it requested. -/
def Obeys (s : Client) : Event → Prop
  | .malloc size _ => 1 ≤ size ∧ size < wordSize
  | .free ptr => ∃ e ∈ s.live, e.1 = ptr
  | .realloc ptr size _ => (∃ e ∈ s.live, e.1 = ptr) ∧ 1 ≤ size ∧ size < wordSize
  | .write addr _ => ∃ e ∈ s.live, e.1 ≤ addr ∧ addr < e.1 + e.2

/-- The block that serves the request holds no live allocation, except the one
that is being reallocated. When no block of the chain is large enough, its last
block is not smaller than a header. -/
def ServesFreeBlock (s : Client) (size own : Nat) : Prop :=
  match s.heap.firstFit size with
  | some block => ∀ e ∈ s.live, e.1 = add64 block sizeofBlock → e.1 = own
  | none =>
      match s.heap.chain.getLast? with
      | some last => sizeofBlock ≤ blockSize s.heap.mem last
      | none => True

instance (s : Client) (size own : Nat) : Decidable (ServesFreeBlock s size own) :=
  match hfirst : s.heap.firstFit size with
  | some block =>
      decidable_of_iff (∀ e ∈ s.live, e.1 = add64 block sizeofBlock → e.1 = own)
        (by simp only [ServesFreeBlock, hfirst])
  | none =>
      match hlast : s.heap.chain.getLast? with
      | some last =>
          decidable_of_iff (sizeofBlock ≤ blockSize s.heap.mem last)
            (by simp only [ServesFreeBlock, hfirst, hlast])
      | none => isTrue (by simp only [ServesFreeBlock, hfirst, hlast])

def Unshared (s : Client) : Event → Prop
  | .malloc size _ => ServesFreeBlock s size 0
  | .realloc ptr size _ => ServesFreeBlock s size ptr
  | .free _ | .write _ _ => True

instance (s : Client) : (event : Event) → Decidable (Obeys s event)
  | .malloc size _ => inferInstanceAs (Decidable (1 ≤ size ∧ size < wordSize))
  | .free ptr => inferInstanceAs (Decidable (∃ e ∈ s.live, e.1 = ptr))
  | .realloc ptr size _ =>
      inferInstanceAs (Decidable ((∃ e ∈ s.live, e.1 = ptr) ∧ 1 ≤ size ∧ size < wordSize))
  | .write addr _ =>
      inferInstanceAs (Decidable (∃ e ∈ s.live, e.1 ≤ addr ∧ addr < e.1 + e.2))

instance (s : Client) : (event : Event) → Decidable (Unshared s event)
  | .malloc size _ => inferInstanceAs (Decidable (ServesFreeBlock s size 0))
  | .realloc ptr size _ => inferInstanceAs (Decidable (ServesFreeBlock s size ptr))
  | .free _ => isTrue trivial
  | .write _ _ => isTrue trivial

def DisjointRanges (e f : Nat × Nat) : Prop := e.1 + e.2 ≤ f.1 ∨ f.1 + f.2 ≤ e.1

instance (e f : Nat × Nat) : Decidable (DisjointRanges e f) :=
  inferInstanceAs (Decidable (_ ∨ _))

/-- Every live allocation has a block of its own that is large enough. -/
structure Separated (s : Client) : Prop where
  wf : WellFormed s.heap
  block : ∀ e ∈ s.live, ∃ a ∈ s.heap.headers,
    e.1 = a + 16 ∧ e.2 ≤ blockSize s.heap.mem a
  distinct : (s.live.map Prod.fst).Nodup

theorem Separated.initial (mem : Bytes) : Separated (initial mem) where
  wf :=
    { blocks := by
        have hempty : InRegions [] = fun _ => False := by
          funext x
          simp [InRegions]
        simp only [Allocator.initial, hempty]
        exact Partition.Cells.nil
      home := by simp [Allocator.initial]
      next := by simp [Allocator.initial]
      pool := Or.inl rfl
      range := by simp [Allocator.initial] }
  block := by simp [Allocator.initial]
  distinct := by simp [Allocator.initial]

theorem Separated.disjoint {s : Client} (h : Separated s) :
    s.live.Pairwise DisjointRanges := by
  have hne : s.live.Pairwise fun e f => e.1 ≠ f.1 := List.pairwise_map.mp h.distinct
  refine hne.imp_of_mem ?_
  intro e f he hf hdiff
  obtain ⟨a, ha, hea, hefits⟩ := h.block e he
  obtain ⟨b, hb, hfb, hffits⟩ := h.block f hf
  have := h.wf.apart ha hb (by omega)
  unfold DisjointRanges
  omega

theorem mem_release {live : List (Nat × Nat)} {ptr : Nat} {e : Nat × Nat}
    (h : e ∈ release live ptr) : e ∈ live :=
  List.mem_of_mem_eraseP h

theorem released_ne {live : List (Nat × Nat)} {ptr : Nat} {e : Nat × Nat}
    (hdistinct : (live.map Prod.fst).Nodup) (h : e ∈ release live ptr) : e.1 ≠ ptr := by
  induction live with
  | nil => simp [release] at h
  | cons f live ih =>
      obtain ⟨hf, htail⟩ := List.nodup_cons.mp hdistinct
      by_cases heq : f.1 = ptr
      · have hmem : e ∈ live := by simpa [release, heq] using h
        intro hep
        exact hf (List.mem_map.mpr ⟨e, hmem, by omega⟩)
      · have hrest : e = f ∨ e ∈ release live ptr := by
          simpa [release, List.eraseP_cons, heq] using h
        cases hrest with
        | inl hsame =>
            subst hsame
            exact heq
        | inr hmem =>
            exact ih htail hmem

theorem release_distinct {live : List (Nat × Nat)} {ptr : Nat}
    (h : (live.map Prod.fst).Nodup) : ((release live ptr).map Prod.fst).Nodup :=
  h.sublist (List.eraseP_sublist.map _)

theorem Separated.serve {s : Client} (h : Separated s) {heap : Heap} {size ptr c : Nat}
    {live : List (Nat × Nat)} {returned : List Nat}
    (hserved : Served s.heap heap size ptr c) (hsub : ∀ e ∈ live, e ∈ s.live)
    (hdistinct : (live.map Prod.fst).Nodup) (hfree : ∀ e ∈ live, e.1 ≠ ptr) :
    Separated ⟨heap, (ptr, size) :: live, returned⟩ where
  wf := hserved.wf
  block := by
    intro e he
    cases List.mem_cons.mp he with
    | inl hsame =>
        subst hsame
        exact ⟨c, hserved.mem, hserved.ptr_eq, hserved.fits⟩
    | inr he =>
        obtain ⟨a, ha, hea, hfits⟩ := h.block e (hsub e he)
        obtain ⟨hmem, hkeep⟩ := hserved.old a ha
        have hne : a ≠ c := by
          intro hac
          apply hfree e he
          rw [hea, hac, hserved.ptr_eq]
        exact ⟨a, hmem, hea, by simpa only [hkeep hne] using hfits⟩
  distinct := by
    refine List.nodup_cons.mpr ⟨?_, hdistinct⟩
    intro hmem
    obtain ⟨e, he, heq⟩ := List.mem_map.mp hmem
    exact hfree e he heq

theorem ServesFreeBlock.grows {s : Client} {size own : Nat}
    (h : ServesFreeBlock s size own) : s.heap.GrowsSafely size := by
  intro hnone last hlast
  simp only [ServesFreeBlock, hnone, hlast] at h
  exact h

/-- The address handed out belongs to no live allocation but `own`. -/
theorem ServesFreeBlock.address {s : Client} (h : Separated s) {heap : Heap}
    {size own ptr c : Nat} (hsafe : ServesFreeBlock s size own)
    (hserved : Served s.heap heap size ptr c) : ∀ e ∈ s.live, e.1 = ptr → e.1 = own := by
  intro e he heq
  obtain ⟨a, ha, hea, _⟩ := h.block e he
  have hac : a = c := by
    have := hserved.ptr_eq
    omega
  have hfirst := hserved.first (hac ▸ ha)
  simp only [ServesFreeBlock, hfirst] at hsafe
  apply hsafe e he
  have hend := h.wf.header_end ha
  have hext := extent_ge s.heap.mem a
  rw [heq, hserved.ptr_eq, add64_eq (by simp only [sizeofBlock]; omega)]
  rfl

theorem Separated.step {host : Host} (hostOk : HostOk host) (s : Client) (event : Event)
    (t : Client) (h : Separated s) (hstep : Obeys s event ∧ Unshared s event)
    (hrun : step host s event = some t) : Separated t := by
  obtain ⟨hobeys, hsafe⟩ := hstep
  cases event with
  | malloc size depth =>
      obtain ⟨ptr, heap, hcall, rfl⟩ := step_malloc hrun
      obtain ⟨c, hserved⟩ := myMalloc_spec hostOk h.wf hsafe.grows hcall
      refine h.serve hserved (fun e he => he) h.distinct ?_
      intro e he heq
      have hzero := hsafe.address h hserved e he heq
      have := hserved.ptr_eq
      omega
  | free ptr =>
      simp only [Allocator.step, Option.some.injEq] at hrun
      subst hrun
      obtain ⟨e, he, rfl⟩ := hobeys
      obtain ⟨a, ha, hea, _⟩ := h.block e he
      rw [hea, myFree_block h.wf ha]
      refine ⟨h.wf.unlink ha, ?_, release_distinct h.distinct⟩
      intro f hf
      obtain ⟨b, hb, hfb, hfits⟩ := h.block f (mem_release hf)
      refine ⟨b, hb, hfb, ?_⟩
      by_cases hba : b = a
      · simpa only [hba, blockSize_setNext] using hfits
      · rwa [(h.wf.other_headers ha hb hba fun x hx => setNext_frame (by
          have := extent_ge s.heap.mem a
          omega)).1]
  | realloc ptr size depth =>
      obtain ⟨⟨e, he, rfl⟩, hsize, _⟩ := hobeys
      obtain ⟨a, ha, hea, _⟩ := h.block e he
      obtain ⟨newPtr, heap, hcall, rfl⟩ := step_realloc hrun
      rw [hea] at hcall
      obtain ⟨c, hserved⟩ := myRealloc_spec hostOk h.wf ha (by omega) hsafe.grows hcall
      have hnull : newPtr ≠ 0 := by
        rw [hserved.ptr_eq]
        omega
      rw [if_neg hnull]
      refine h.serve hserved (fun f hf => mem_release hf) (release_distinct h.distinct) ?_
      intro f hf heq
      exact released_ne h.distinct hf (hsafe.address h hserved f (mem_release hf) heq)
  | write addr byte =>
      simp only [Allocator.step, Option.some.injEq] at hrun
      subst hrun
      obtain ⟨e, he, hlow, hhigh⟩ := hobeys
      obtain ⟨a, ha, hea, hfits⟩ := h.block e he
      obtain ⟨hwf, hsizes⟩ := h.wf.write_payload ha (store8 s.heap.mem addr byte)
        fun x hx => store8_frame (by omega)
      refine ⟨hwf, ?_, h.distinct⟩
      intro f hf
      obtain ⟨b, hb, hfb, hbfits⟩ := h.block f hf
      exact ⟨b, hb, hfb, by simpa only [hsizes b hb] using hbfits⟩

/-- In a run that never shares a block, the live allocations are disjoint at
every point. -/
theorem live_allocations_disjoint (host : Host) (hostOk : HostOk host) (mem : Bytes)
    (events : List Event) (s : Client)
    (obeys : Along (step host) Obeys (initial mem) events)
    (unshared : Along (step host) Unshared (initial mem) events)
    (h : run (step host) (initial mem) events = some s) :
    s.live.Pairwise DisjointRanges :=
  (invariant_along (Separated.step hostOk) (Separated.initial mem) (obeys.and unshared) h).disjoint

/-- Sharing a block is what the condition excludes: a request served from a block
that holds a live allocation overlaps it. -/
theorem shared_block_overlaps {host : Host} {s t : Client} {size depth block : Nat}
    {e : Nat × Nat} (hsize : 1 ≤ size) (he : e ∈ s.live) (hepos : 1 ≤ e.2)
    (hfirst : s.heap.firstFit size = some block)
    (hshared : e.1 = add64 block sizeofBlock)
    (hrun : step host s (.malloc size depth) = some t) :
    ¬ t.live.Pairwise DisjointRanges := by
  obtain ⟨ptr, heap, hcall, rfl⟩ := step_malloc hrun
  have hptr := myMalloc_firstFit hfirst hcall
  intro hdisjoint
  have := (List.pairwise_cons.mp hdisjoint).1 e he
  unfold DisjointRanges at this
  omega

def onePoolHost : Host := fun regions size =>
  if regions = [] ∧ size ≤ 4096 then 8192 else 0

theorem onePoolHost_ok : HostOk onePoolHost where
  bounds regions size h := by
    by_cases hc : regions = [] ∧ size ≤ 4096
    · simp only [onePoolHost, hc, and_self, if_true]
      omega
    · simp [onePoolHost, hc] at h
  fresh regions size h := by
    by_cases hc : regions = [] ∧ size ≤ 4096
    · simp [hc.1]
    · simp [onePoolHost, hc] at h

def zeroBytes : Bytes := fun _ => 0

/-- Three allocations are live at the end; one was moved, and its block is served again. -/
theorem live_allocations_disjoint_reuse :
    ∃ s, run (step onePoolHost) (initial zeroBytes) [.malloc 16 1, .malloc 17 1, .write 8208 7,
        .realloc 8240 40 1, .malloc 17 1] = some s ∧
      s.live = [(8240, 17), (8273, 40), (8208, 16)] ∧ s.live.Pairwise DisjointRanges := by
  have hlive : (run (step onePoolHost) (initial zeroBytes) [.malloc 16 1, .malloc 17 1,
      .write 8208 7, .realloc 8240 40 1, .malloc 17 1]).map Client.live =
      some [(8240, 17), (8273, 40), (8208, 16)] := by decide +kernel
  obtain ⟨s, hs, hthree⟩ := Option.map_eq_some_iff.mp hlive
  refine ⟨s, hs, hthree,
    live_allocations_disjoint onePoolHost onePoolHost_ok zeroBytes _ s ?_ ?_ hs⟩
  · decide +kernel
  · decide +kernel

/-- Two requests of one size are served from the same block. -/
theorem live_allocations_overlap :
    ¬ ∀ (host : Host), HostOk host → ∀ (mem : Bytes) (events : List Event) (s : Client),
      Along (step host) Obeys (initial mem) events →
      run (step host) (initial mem) events = some s →
      s.live.Pairwise DisjointRanges := by
  intro hall
  have hlive : (run (step onePoolHost) (initial zeroBytes)
      [.malloc 16 1, .malloc 16 1]).map Client.live = some [(8208, 16), (8208, 16)] := by
    decide +kernel
  obtain ⟨s, hs, hshared⟩ := Option.map_eq_some_iff.mp hlive
  have hdisjoint := hall onePoolHost onePoolHost_ok zeroBytes _ s (by decide +kernel) hs
  rw [hshared] at hdisjoint
  exact absurd hdisjoint (by decide)

end LinuxTraining.Allocator
