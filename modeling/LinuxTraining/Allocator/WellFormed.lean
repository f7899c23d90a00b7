import LinuxTraining.Allocator.MyMalloc
import LinuxTraining.Library.Partition

/-!
The block structure that the allocator maintains: the headers ever written cut
the host's regions into blocks, and a header links to the block right after it
or to nothing. Each operation keeps it, as long as no pool is smaller than its
own header.
-/
namespace LinuxTraining.Allocator
open Memory

def InRegions (regions : List (Nat × Nat)) (x : Nat) : Prop :=
  ∃ r ∈ regions, r.1 ≤ x ∧ x < r.1 + r.2

structure WellFormed (heap : Heap) : Prop where
  blocks : Partition.Cells heap.headers (extent heap.mem) (InRegions heap.regions)
  home : ∀ a ∈ heap.headers, ∃ r ∈ heap.regions,
    r.1 ≤ a ∧ a + extent heap.mem a ≤ r.1 + r.2
  next : ∀ a ∈ heap.headers, blockNext heap.mem a = 0 ∨
    (blockNext heap.mem a = a + extent heap.mem a ∧ a + extent heap.mem a ∈ heap.headers)
  pool : heap.memoryPool = 0 ∨ heap.memoryPool ∈ heap.headers
  range : ∀ r ∈ heap.regions, 0 < r.1 ∧ r.1 + r.2 < 2 ^ 64 ∧ r.2 < 2 ^ 63

/-- Documented behaviour of host `malloc`: an object lies inside the address
space, is at most `PTRDIFF_MAX` bytes long and overlaps no other object. -/
structure HostOk (host : Host) : Prop where
  bounds : ∀ regions size, host regions size ≠ 0 →
    host regions size + size < 2 ^ 64 ∧ size < 2 ^ 63
  fresh : ∀ regions size, host regions size ≠ 0 → ∀ r ∈ regions,
    host regions size + size ≤ r.1 ∨ r.1 + r.2 ≤ host regions size

section Headers
variable {mem : Bytes} {a b v : Nat}

theorem blockSize_setSize (hv : v < 2 ^ 64) : blockSize (setSize mem b v) b = v :=
  load64_store64_same hv

theorem blockNext_setNext (hv : v < 2 ^ 64) : blockNext (setNext mem b v) b = v :=
  load64_store64_same hv

@[simp] theorem blockSize_setNext : blockSize (setNext mem b v) b = blockSize mem b :=
  load64_store64_frame (Or.inl (Nat.le_refl _))

theorem header_congr {mem' : Bytes} (h : ∀ x, a ≤ x → x < a + 16 → mem' x = mem x) :
    blockSize mem' a = blockSize mem a ∧ blockNext mem' a = blockNext mem a :=
  ⟨load64_congr fun x h1 h2 => h x h1 (by omega),
    load64_congr fun x h1 h2 => h x (by omega) (by omega)⟩

theorem setSize_frame {x : Nat} (h : x < b ∨ b + 16 ≤ x) : setSize mem b v x = mem x :=
  store64_frame (by omega)

theorem setNext_frame {x : Nat} (h : x < b ∨ b + 16 ≤ x) : setNext mem b v x = mem x :=
  store64_frame (by omega)

theorem extent_ge (mem : Bytes) (a : Nat) : 16 ≤ extent mem a :=
  Nat.le_add_right _ _

end Headers

variable {heap : Heap}

theorem WellFormed.header_pos (h : WellFormed heap) {a : Nat} (ha : a ∈ heap.headers) :
    0 < a := by
  obtain ⟨r, hr, hlow, _⟩ := h.home a ha
  have := h.range r hr
  omega

theorem WellFormed.header_end (h : WellFormed heap) {a : Nat} (ha : a ∈ heap.headers) :
    a + extent heap.mem a < 2 ^ 64 := by
  obtain ⟨r, hr, _, hhigh⟩ := h.home a ha
  have := h.range r hr
  omega

theorem WellFormed.header_of (h : WellFormed heap) {a : Nat} (ha : a ∈ heap.headers) :
    sub64 (a + 16) sizeofBlock = a := by
  have hend := h.header_end ha
  have hext := extent_ge heap.mem a
  rw [sub64_eq (by simp [sizeofBlock]) (by omega)]
  exact Nat.add_sub_cancel a 16

theorem WellFormed.size_lt (h : WellFormed heap) {a : Nat} (ha : a ∈ heap.headers) :
    blockSize heap.mem a < 2 ^ 63 - 16 := by
  obtain ⟨r, hr, hlow, hhigh⟩ := h.home a ha
  have := h.range r hr
  simp only [extent, sizeofBlock] at hhigh
  omega

/-- Two distinct blocks occupy disjoint address ranges, headers included. -/
theorem WellFormed.apart (h : WellFormed heap) {a b : Nat} (ha : a ∈ heap.headers)
    (hb : b ∈ heap.headers) (hne : a ≠ b) :
    a + 16 + blockSize heap.mem a ≤ b ∨ b + 16 + blockSize heap.mem b ≤ a := by
  have := h.blocks.disjoint a ha b hb hne
  simp only [extent, sizeofBlock] at this
  omega

/-- The structure depends on the memory only through the header bytes. -/
theorem WellFormed.congr (h : WellFormed heap) {mem : Bytes}
    (same : ∀ a ∈ heap.headers, ∀ x, a ≤ x → x < a + 16 → mem x = heap.mem x) :
    WellFormed { heap with mem := mem } := by
  have hsize : ∀ a ∈ heap.headers, extent mem a = extent heap.mem a := fun a ha => by
    simp only [extent, (header_congr (same a ha)).1]
  have hnext : ∀ a ∈ heap.headers, blockNext mem a = blockNext heap.mem a := fun a ha =>
    (header_congr (same a ha)).2
  refine ⟨h.blocks.congr hsize, ?_, ?_, h.pool, h.range⟩
  · intro a ha
    simp only [hsize a ha]
    exact h.home a ha
  · intro a ha
    simp only [hsize a ha, hnext a ha]
    exact h.next a ha

/-- A header write outside every other block leaves the other headers alone. -/
theorem WellFormed.other_headers (h : WellFormed heap) {a b : Nat} (hb : b ∈ heap.headers)
    (ha : a ∈ heap.headers) (hne : a ≠ b) {mem : Bytes}
    (same : ∀ x, x < b ∨ b + extent heap.mem b ≤ x → mem x = heap.mem x) :
    blockSize mem a = blockSize heap.mem a ∧ blockNext mem a = blockNext heap.mem a := by
  have hapart := h.blocks.disjoint a ha b hb hne
  have hext := extent_ge heap.mem a
  exact header_congr fun x h1 h2 => same x (by omega)

/-- Unlinking a block from its successor, as `my_free` does. -/
theorem WellFormed.unlink (h : WellFormed heap) {b : Nat} (hb : b ∈ heap.headers) :
    WellFormed { heap with mem := setNext heap.mem b 0 } := by
  have hext := extent_ge heap.mem b
  have hothers : ∀ a ∈ heap.headers, a ≠ b →
      blockSize (setNext heap.mem b 0) a = blockSize heap.mem a ∧
      blockNext (setNext heap.mem b 0) a = blockNext heap.mem a := fun a ha hne =>
    h.other_headers hb ha hne fun x hx => setNext_frame (by omega)
  have hsize : ∀ a ∈ heap.headers,
      extent (setNext heap.mem b 0) a = extent heap.mem a := by
    intro a ha
    by_cases hab : a = b
    · simp [extent, hab]
    · simp only [extent, (hothers a ha hab).1]
  refine ⟨h.blocks.congr hsize, ?_, ?_, h.pool, h.range⟩
  · intro a ha
    simp only [hsize a ha]
    exact h.home a ha
  · intro a ha
    by_cases hab : a = b
    · exact Or.inl (by rw [hab]; exact blockNext_setNext (by decide))
    · simp only [hsize a ha, (hothers a ha hab).2]
      exact h.next a ha

/-- What `my_free` does to a block of the heap. -/
theorem myFree_block (h : WellFormed heap) {a : Nat} (ha : a ∈ heap.headers) :
    myFree heap (a + 16) = { heap with mem := setNext heap.mem a 0 } := by
  simp [myFree, h.header_of ha]

/-- Neither bound of the split test wraps for a block that is large enough. -/
theorem WellFormed.split_no_wrap (h : WellFormed heap) {c size : Nat}
    (hc : c ∈ heap.headers) (hfits : size ≤ blockSize heap.mem c) :
    add64 size sizeofBlock = size + 16 ∧
    (size + 16 < blockSize heap.mem c →
      sub64 (sub64 (blockSize heap.mem c) size) sizeofBlock =
        blockSize heap.mem c - size - 16 ∧ size + 16 ≤ blockSize heap.mem c) := by
  have hsize := h.size_lt hc
  refine ⟨add64_eq (by simp only [sizeofBlock]; omega), fun hlarge => ⟨?_, by omega⟩⟩
  rw [sub64_eq hfits (by omega), sub64_eq (by simp only [sizeofBlock]; omega) (by omega)]
  rfl

theorem WellFormed.new_block_addr (h : WellFormed heap) {c size : Nat}
    (hc : c ∈ heap.headers) (hfits : size ≤ blockSize heap.mem c) :
    add64 (add64 c sizeofBlock) size = c + 16 + size := by
  have hend := h.header_end hc
  simp only [extent, sizeofBlock] at hend
  rw [add64_eq (a := c) (by simp only [sizeofBlock]; omega),
    add64_eq (by simp only [sizeofBlock]; omega)]
  rfl

def cutMem (mem : Bytes) (c b size rest next : Nat) : Bytes :=
  setNext (setSize (setNext (setSize mem b rest) b next) c size) c b

theorem cutMem_spec (mem : Bytes) (c b size rest next : Nat) (hcb : c + 16 ≤ b)
    (hsize : size < 2 ^ 64) (hrest : rest < 2 ^ 64) (hnext : next < 2 ^ 64)
    (hb : b < 2 ^ 64) :
    let mem' := cutMem mem c b size rest next
    blockSize mem' c = size ∧ blockNext mem' c = b ∧
    blockSize mem' b = rest ∧ blockNext mem' b = next ∧
    ∀ x, (x < c ∨ c + 16 ≤ x) → (x < b ∨ b + 16 ≤ x) → mem' x = mem x := by
  have hsecond : blockSize (cutMem mem c b size rest next) b =
        blockSize (setNext (setSize mem b rest) b next) b ∧
      blockNext (cutMem mem c b size rest next) b =
        blockNext (setNext (setSize mem b rest) b next) b :=
    header_congr fun x h1 h2 => by
      rw [cutMem, setNext_frame (by omega), setSize_frame (by omega)]
  refine ⟨?_, ?_, ?_, ?_, ?_⟩
  · rw [cutMem, blockSize_setNext, blockSize_setSize hsize]
  · rw [cutMem, blockNext_setNext hb]
  · rw [hsecond.1, blockSize_setNext, blockSize_setSize hrest]
  · rw [hsecond.2, blockNext_setNext hnext]
  · intro x hxc hxb
    rw [cutMem, setNext_frame hxc, setSize_frame hxc, setNext_frame hxb, setSize_frame hxb]

/-- The two outcomes of serving a request: the block as it is, or its front. -/
theorem serve_cases (h : WellFormed heap) {c size : Nat} (hc : c ∈ heap.headers)
    (hfits : size ≤ blockSize heap.mem c) :
    (serve heap c size = heap ∧ blockSize heap.mem c ≤ size + 16) ∨
    (size + 16 < blockSize heap.mem c ∧
      serve heap c size =
        { heap with
          mem := cutMem heap.mem c (c + 16 + size) size
            (blockSize heap.mem c - size - 16) (blockNext heap.mem c)
          headers := (c + 16 + size) :: heap.headers }) := by
  obtain ⟨hadd, hsub⟩ := h.split_no_wrap hc hfits
  have hnew := h.new_block_addr hc hfits
  by_cases hlarge : size + 16 < blockSize heap.mem c
  · refine Or.inr ⟨hlarge, ?_⟩
    have hread : blockNext (setSize heap.mem (c + 16 + size)
        (blockSize heap.mem c - size - 16)) c = blockNext heap.mem c :=
      (header_congr fun x h1 h2 => setSize_frame (by omega)).2
    simp only [serve, hadd, hlarge, if_true, hnew, (hsub hlarge).1, hread, cutMem]
  · exact Or.inl ⟨by simp only [serve, hadd, hlarge, if_false], by omega⟩

@[simp] theorem serve_regions (c size : Nat) : (serve heap c size).regions = heap.regions := by
  unfold serve
  split <;> rfl

@[simp] theorem myFree_regions (ptr : Nat) : (myFree heap ptr).regions = heap.regions := by
  unfold myFree
  split <;> rfl

/-- The headers after a split: the two parts of `c`, and every other block as it was. -/
theorem WellFormed.split_spec (h : WellFormed heap) {c size : Nat} (hc : c ∈ heap.headers)
    (hlarge : size + 16 < blockSize heap.mem c) {mem : Bytes}
    (hmem : cutMem heap.mem c (c + 16 + size) size (blockSize heap.mem c - size - 16)
      (blockNext heap.mem c) = mem) :
    (blockSize mem c = size ∧ blockNext mem c = c + 16 + size) ∧
    (blockSize mem (c + 16 + size) = blockSize heap.mem c - size - 16 ∧
      blockNext mem (c + 16 + size) = blockNext heap.mem c) ∧
    ∀ a ∈ heap.headers, a ≠ c →
      blockSize mem a = blockSize heap.mem a ∧ blockNext mem a = blockNext heap.mem a := by
  have hsize := h.size_lt hc
  have hend := h.header_end hc
  have hnextlt : blockNext heap.mem c < 2 ^ 64 := load64_lt _ _
  simp only [extent, sizeofBlock] at hend
  obtain ⟨hsizec, hnextc, hsizeb, hnextb, hframe⟩ :=
    cutMem_spec heap.mem c (c + 16 + size) size (blockSize heap.mem c - size - 16)
      (blockNext heap.mem c)
      (by omega) (by omega) (by omega) hnextlt (by omega)
  rw [hmem] at hsizec hnextc hsizeb hnextb hframe
  refine ⟨⟨hsizec, hnextc⟩, ⟨hsizeb, hnextb⟩, fun a ha hne => ?_⟩
  refine h.other_headers hc ha hne fun x hx => ?_
  simp only [extent, sizeofBlock] at hx
  exact hframe x (by omega) (by omega)

/-- Serving a request keeps the structure, gives the block at least the
requested size and changes the size of no other block. -/
theorem serve_spec (h : WellFormed heap) {c size : Nat} (hc : c ∈ heap.headers)
    (hfits : size ≤ blockSize heap.mem c) :
    let heap' := serve heap c size
    WellFormed heap' ∧ size ≤ blockSize heap'.mem c ∧
    ∀ a ∈ heap.headers, a ∈ heap'.headers ∧
      (a ≠ c → blockSize heap'.mem a = blockSize heap.mem a) := by
  cases serve_cases h hc hfits with
  | inl hwhole =>
      obtain ⟨heq, _⟩ := hwhole
      rw [heq]
      exact ⟨h, hfits, fun a ha => ⟨ha, fun _ => rfl⟩⟩
  | inr hsplit =>
      obtain ⟨hlarge, heq⟩ := hsplit
      generalize hm : cutMem heap.mem c (c + 16 + size) size
        (blockSize heap.mem c - size - 16) (blockNext heap.mem c) = mem' at *
      obtain ⟨⟨hsizec, hnextc⟩, ⟨hsizeb, hnextb⟩, hothers⟩ := h.split_spec hc hlarge hm
      have hnotmem : c + 16 + size ∉ heap.headers := by
        intro hb
        have := h.apart hb hc (by omega)
        omega
      have hblocks := h.blocks.cut (extent mem') hc (b := c + 16 + size) (by omega)
        (by simp only [extent, sizeofBlock]; omega)
        (by simp only [extent, sizeofBlock, hsizec]; omega)
        (by simp only [extent, sizeofBlock, hsizeb]; omega)
        (fun a ha hne => by simp only [extent, (hothers a ha hne).1])
      rw [heq]
      refine ⟨⟨hblocks, ?_, ?_, h.pool.imp_right (List.mem_cons_of_mem _), h.range⟩,
        by simp only [hsizec, le_refl], fun a ha => ⟨List.mem_cons_of_mem _ ha, fun hne =>
          (hothers a ha hne).1⟩⟩
      · intro a ha
        obtain ⟨r, hr, hlow, hhigh⟩ := h.home c hc
        simp only [extent, sizeofBlock] at hhigh ⊢
        cases List.mem_cons.mp ha with
        | inl hsame =>
            subst hsame
            exact ⟨r, hr, by omega, by simp only [hsizeb]; omega⟩
        | inr ha =>
            by_cases hac : a = c
            · subst hac
              exact ⟨r, hr, hlow, by simp only [hsizec]; omega⟩
            · simp only [(hothers a ha hac).1]
              exact h.home a ha
      · intro a ha
        simp only [extent, sizeofBlock]
        cases List.mem_cons.mp ha with
        | inl hsame =>
            subst hsame
            rw [hnextb, hsizeb]
            have hold := h.next c hc
            simp only [extent, sizeofBlock] at hold
            have hsame : c + 16 + size + (16 + (blockSize heap.mem c - size - 16)) =
                c + (16 + blockSize heap.mem c) := by omega
            rw [hsame]
            exact hold.imp_right fun ⟨h1, h2⟩ => ⟨h1, List.mem_cons_of_mem _ h2⟩
        | inr ha =>
            by_cases hac : a = c
            · subst hac
              rw [hnextc, hsizec]
              refine Or.inr ⟨by omega, ?_⟩
              have : a + (16 + size) = a + 16 + size := by omega
              rw [this]
              exact List.mem_cons_self
            · rw [(hothers a ha hac).1, (hothers a ha hac).2]
              have hold := h.next a ha
              simp only [extent, sizeofBlock] at hold
              exact hold.imp_right fun ⟨h1, h2⟩ => ⟨h1, List.mem_cons_of_mem _ h2⟩

end LinuxTraining.Allocator
