import LinuxTraining.Allocator.Growth
import LinuxTraining.Allocator.PoolTiling
import LinuxTraining.Allocator.Realloc
import Mathlib.Order.Interval.Finset.Nat

/-!
The sizes of the pools that one call makes, from any chain at all. From each pool to the next
the size `s` of the only block becomes `2 * s - 16`, in words: it grows from more than 16, it
stays 16, and from less it falls until it wraps.
-/
namespace LinuxTraining.Allocator
open Memory

inductive Links (mem : Bytes) : Nat → List Nat → Prop where
  | nil : Links mem 0 []
  | cons {block : Nat} {chain : List Nat} (pos : block ≠ 0) (word : block < wordSize)
      (rest : Links mem (blockNext mem block) chain) : Links mem block (block :: chain)

/-- The size of the block after `k` pools, `s` being the size of the last block before. -/
def sizeAfter (s : Nat) : (k : Nat) → Nat
  | 0 => s
  | k + 1 => sub64 (mul64 (sizeAfter s k) 2) sizeofBlock

def poolAfter (host : Host) (heap : Heap) (s : Nat) : (k : Nat) → Heap
  | 0 => heap
  | k + 1 =>
      (initializeMemoryPool host (poolAfter host heap s k) (mul64 (sizeAfter s k) 2)).getD
        (poolAfter host heap s k)

def AlwaysSucceeds (host : Host) : Prop :=
  ∀ regions size, size < 2 ^ 63 → host regions size ≠ 0 ∧ host regions size + size < 2 ^ 64

structure SingleBlock (heap : Heap) (s : Nat) : Prop where
  pool : heap.memoryPool ≠ 0
  next : blockNext heap.mem heap.memoryPool = 0
  size : blockSize heap.mem heap.memoryPool = s

variable {heap heap' : Heap} {host : Host} {mem : Bytes} {block last s n k : Nat}
  {chain more : List Nat}

theorem Links.unique (h : Links mem block chain) (h' : Links mem block more) : chain = more := by
  induction h generalizing more with
  | nil =>
      cases h' with
      | nil => rfl
      | cons hpos _ _ => exact absurd rfl hpos
  | cons hpos _ _ ih =>
      cases h' with
      | nil => exact absurd rfl hpos
      | cons _ _ hrest => rw [ih hrest]

theorem Links.behind (h : Links mem block chain) {b : Nat} (hb : b ∈ chain) :
    (b ≠ 0 ∧ b < wordSize) ∧
      ∃ before after, chain = before ++ b :: after ∧ Links mem b (b :: after) := by
  induction h with
  | nil => exact absurd hb List.not_mem_nil
  | @cons block chain hpos hword hrest ih =>
      by_cases hfirst : b = block
      · subst hfirst
        exact ⟨⟨hpos, hword⟩, [], chain, rfl, .cons hpos hword hrest⟩
      · obtain ⟨hbounds, before, after, rfl, hlinks⟩ :=
          ih ((List.mem_cons.mp hb).resolve_left hfirst)
        exact ⟨hbounds, block :: before, after, rfl, hlinks⟩

theorem Links.nodup (h : Links mem block chain) : chain.Nodup := by
  induction h with
  | nil => exact List.nodup_nil
  | @cons block chain hpos hword hrest ih =>
      refine List.nodup_cons.mpr ⟨fun hmem => ?_, ih⟩
      obtain ⟨-, before, after, rfl, hagain⟩ := hrest.behind hmem
      have hsame := hagain.unique (.cons hpos hword hrest)
      have hlength := congrArg List.length hsame
      simp only [List.length_cons, List.length_append] at hlength
      omega

theorem Links.length_lt (h : Links mem block chain) : chain.length < wordSize := by
  have hsubset : chain.toFinset ⊆ Finset.Ioo 0 wordSize := fun b hb => by
    obtain ⟨hpos, hword⟩ := (h.behind (List.mem_toFinset.mp hb)).1
    exact Finset.mem_Ioo.mpr ⟨Nat.pos_of_ne_zero hpos, hword⟩
  have hcard := Finset.card_le_card hsubset
  rw [List.toFinset_card_of_nodup h.nodup, Nat.card_Ioo] at hcard
  have hword : wordSize = 2 ^ 64 := rfl
  omega

theorem Links.search (h : Links mem block chain) (hsmall : ∀ b ∈ chain, blockSize mem b < n)
    {turns previous : Nat} (hturns : chain.length < turns) :
    search mem n turns block previous = .exhausted (chain.getLast?.getD previous) := by
  induction h generalizing turns previous with
  | nil =>
      cases turns with
      | zero => exact absurd hturns (Nat.not_lt_zero _)
      | succ turns => rfl
  | @cons block chain hpos _ _ ih =>
      cases turns with
      | zero => exact absurd hturns (Nat.not_lt_zero _)
      | succ turns =>
          have hblock := hsmall block List.mem_cons_self
          rw [Allocator.search, if_neg hpos, if_neg (Nat.not_le.mpr hblock),
            ih (fun b hb => hsmall b (List.mem_cons_of_mem _ hb)) (Nat.lt_of_succ_lt_succ hturns),
            List.getLast?_cons, Option.getD_some]

theorem SingleBlock.search (h : SingleBlock heap s) (n : Nat) :
    search heap.mem n wordSize heap.memoryPool 0 =
      if n ≤ s then .found heap.memoryPool else .exhausted heap.memoryPool := by
  have hturns : wordSize = 2 ^ 64 - 2 + 1 + 1 := by decide
  rw [hturns, Allocator.search, if_neg h.pool, h.size, h.next, Allocator.search, if_pos rfl]

@[simp] theorem serve_memoryPool (c size : Nat) :
    (serve heap c size).memoryPool = heap.memoryPool := by
  simp only [serve]
  split <;> rfl

theorem initialize_single (hinit : initializeMemoryPool host heap n = some heap') :
    SingleBlock heap' (sub64 n sizeofBlock) :=
  ⟨(initialize_regions hinit).2.2, (initialize_block hinit).2, (initialize_block hinit).1⟩

/-- A call whose search comes to the end of the chain goes on in the new pool. -/
theorem myMalloc_exhausted (hpool : heap.memoryPool ≠ 0) (hlast : last ≠ 0)
    (hsearch : search heap.mem n wordSize heap.memoryPool 0 = .exhausted last)
    (hinit : initializeMemoryPool host heap (mul64 (blockSize heap.mem last) 2) = some heap')
    (depth : Nat) : myMalloc host (depth + 1) heap n = myMalloc host depth heap' n := by
  simp only [myMalloc, hpool, if_false, allocate, hsearch, hlast, hinit]

theorem SingleBlock.serves (h : SingleBlock heap s) (hfits : n ≤ s) (depth : Nat) :
    myMalloc host (depth + 1) heap n =
      .returned (add64 heap.memoryPool sizeofBlock, serve heap heap.memoryPool n) := by
  have hsearch := h.search n
  rw [if_pos hfits] at hsearch
  simp only [myMalloc, h.pool, if_false, allocate, hsearch]

theorem AlwaysSucceeds.initialize (hsucceeds : AlwaysSucceeds host) (heap : Heap)
    (hn : n < 2 ^ 63) : ∃ heap', initializeMemoryPool host heap n = some heap' ∧
      heap'.regions = (heap'.memoryPool, n) :: heap.regions ∧ heap'.memoryPool + n < 2 ^ 64 := by
  obtain ⟨hnull, hword⟩ := hsucceeds heap.regions n hn
  refine ⟨_, if_neg hnull, rfl, hword⟩

structure CameTo (host : Host) (heap : Heap) (n s k : Nat) : Prop where
  calls : ∀ depth,
    myMalloc host (depth + k) heap n = myMalloc host depth (poolAfter host heap s k) n
  single : 0 < k → SingleBlock (poolAfter host heap s k) (sizeAfter s k)
  region : ∀ j, k = j + 1 → ∃ regions, (poolAfter host heap s k).regions =
    ((poolAfter host heap s k).memoryPool, mul64 (sizeAfter s j) 2) :: regions ∧
      (poolAfter host heap s k).memoryPool + mul64 (sizeAfter s j) 2 < 2 ^ 64

/-- Where the last block is too small, the search comes to it. -/
theorem CameTo.search (h : CameTo host heap n (blockSize heap.mem last) k)
    (hlinks : Links heap.mem heap.memoryPool chain) (hlast : chain.getLast? = some last)
    (hsmall : ∀ b ∈ chain, blockSize heap.mem b < n)
    (hsize : sizeAfter (blockSize heap.mem last) k < n) :
    let here := poolAfter host heap (blockSize heap.mem last) k
    ∃ end_block, here.memoryPool ≠ 0 ∧ end_block ≠ 0 ∧
      search here.mem n wordSize here.memoryPool 0 = .exhausted end_block ∧
      blockSize here.mem end_block = sizeAfter (blockSize heap.mem last) k := by
  cases k with
  | zero =>
      refine ⟨last, fun hnull => ?_, ((hlinks.behind (List.mem_of_getLast? hlast)).1).1, ?_, rfl⟩
      · have hempty : chain = [] := hlinks.unique (by
          rw [show heap.memoryPool = 0 from hnull]
          exact .nil)
        rw [hempty] at hlast
        cases hlast
      · have hsearch : Allocator.search heap.mem n wordSize heap.memoryPool 0 =
            .exhausted (chain.getLast?.getD 0) := hlinks.search hsmall hlinks.length_lt
        rw [hlast] at hsearch
        exact hsearch
  | succ k =>
      have hsingle := h.single (Nat.succ_pos k)
      refine ⟨_, hsingle.pool, hsingle.pool, ?_, hsingle.size⟩
      rw [hsingle.search n, if_neg (Nat.not_le.mpr hsize)]

theorem cameTo (hsucceeds : AlwaysSucceeds host) (hlinks : Links heap.mem heap.memoryPool chain)
    (hlast : chain.getLast? = some last) (hsmall : ∀ b ∈ chain, blockSize heap.mem b < n)
    (hn : n ≤ 2 ^ 62) (k : Nat) (hbelow : ∀ j < k, sizeAfter (blockSize heap.mem last) j < n) :
    CameTo host heap n (blockSize heap.mem last) k := by
  induction k with
  | zero =>
      exact ⟨fun _ => rfl, fun h => absurd h (Nat.lt_irrefl 0),
        fun j h => absurd h (Nat.succ_ne_zero j).symm⟩
  | succ k ih =>
      have hcame := ih fun j hj => hbelow j (Nat.lt_succ_of_lt hj)
      have hsize := hbelow k (Nat.lt_succ_self k)
      obtain ⟨end_block, hpool, hend, hsearch, hblock⟩ := hcame.search hlinks hlast hsmall hsize
      have hdouble : mul64 (sizeAfter (blockSize heap.mem last) k) 2 < 2 ^ 63 := by
        rw [mul64_eq (by omega)]
        omega
      obtain ⟨next, hinit, hregions, hword⟩ :=
        hsucceeds.initialize (poolAfter host heap (blockSize heap.mem last) k) hdouble
      have hnext : poolAfter host heap (blockSize heap.mem last) (k + 1) = next := by
        rw [poolAfter, hinit]
        rfl
      refine ⟨fun depth => ?_, fun _ => ?_, fun j hj => ?_⟩
      · rw [hnext, ← Nat.add_assoc, Nat.add_right_comm, hcame.calls (depth + 1)]
        exact myMalloc_exhausted hpool hend hsearch (by rw [hblock]; exact hinit) depth
      · rw [hnext]
        exact initialize_single hinit
      · obtain rfl : k = j := Nat.succ.inj hj
        rw [hnext]
        exact ⟨_, hregions, hword⟩

/-- The call returns from the first pool that is large enough. -/
theorem CameTo.returns (h : CameTo host heap n s k) (hk : 0 < k) (hfits : n ≤ sizeAfter s k) :
    myMalloc host (k + 1) heap n =
      .returned (add64 (poolAfter host heap s k).memoryPool sizeofBlock,
        serve (poolAfter host heap s k) (poolAfter host heap s k).memoryPool n) := by
  rw [Nat.add_comm, h.calls 1]
  exact (h.single hk).serves hfits 0

theorem sizeAfter_grows (hs : 16 < s) (hbelow : ∀ j < k, 16 + 2 ^ j * (s - 16) < 2 ^ 62) :
    sizeAfter s k = 16 + 2 ^ k * (s - 16) := by
  induction k with
  | zero =>
      simp only [sizeAfter, Nat.pow_zero, Nat.one_mul]
      omega
  | succ k ih =>
      have hsize := ih fun j hj => hbelow j (Nat.lt_succ_of_lt hj)
      have hbound := hbelow k (Nat.lt_succ_self k)
      rw [sizeAfter, hsize, Nat.pow_succ, Nat.mul_right_comm]
      generalize 2 ^ k * (s - 16) = grown at *
      rw [mul64_eq (by omega), sub64_eq (by simp only [sizeofBlock]; omega) (by omega)]
      simp only [sizeofBlock]
      omega

theorem sizeAfter_stays (k : Nat) : sizeAfter 16 k = 16 := by
  induction k with
  | zero => rfl
  | succ k ih =>
      rw [sizeAfter, ih]
      decide

/-- From less than 16 the sizes fall, until a pool has no room for its header. -/
theorem sizeAfter_falls : ∀ s < 16, ∃ k < 5, (∀ j ≤ k, sizeAfter s j ≤ s) ∧
    mul64 (sizeAfter s k) 2 < sizeofBlock ∧ 2 ^ 64 - 16 ≤ sizeAfter s (k + 1) := by
  decide +kernel

theorem CameTo.in_pool (h : CameTo host heap n s (k + 1))
    (hroom : sizeofBlock ≤ mul64 (sizeAfter s k) 2) (hfits : n ≤ sizeAfter s (k + 1)) :
    let here := poolAfter host heap s (k + 1)
    InCurrentPool (serve here here.memoryPool n) (add64 here.memoryPool sizeofBlock) n := by
  obtain ⟨regions, hregions, hword⟩ := h.region k rfl
  intro here
  change here.memoryPool + _ < _ at hword
  have hsize : mul64 (sizeAfter s k) 2 < 2 ^ 64 := Nat.mod_lt _ (by decide)
  rw [sizeAfter, sub64_eq hroom hsize] at hfits
  simp only [sizeofBlock] at hroom hfits
  have hptr : add64 here.memoryPool sizeofBlock = here.memoryPool + 16 :=
    add64_eq (by simp only [sizeofBlock]; omega)
  refine ⟨(here.memoryPool, mul64 (sizeAfter s k) 2), ?_, (serve_memoryPool _ _).symm, ?_, ?_⟩
  · rw [serve_regions, hregions, List.head?_cons]
  · rw [hptr]
    exact Nat.le_refl _
  · rw [hptr]
    simp only
    omega

theorem grows_over (hs : 16 < s) (hn : n ≤ 2 ^ 62) : ∃ k, n ≤ 16 + 2 ^ k * (s - 16) := by
  refine ⟨62, ?_⟩
  have hmore : 2 ^ 62 * 1 ≤ 2 ^ 62 * (s - 16) := Nat.mul_le_mul_left _ (by omega)
  omega

/-- From a last block of more than 16 bytes the call returns from the first pool that is
large enough. -/
theorem grows_until (hcame : ∀ k, (∀ j < k, sizeAfter s j < n) → CameTo host heap n s k)
    (hbelow : s < n) (hs : 16 < s) (hn : n ≤ 2 ^ 62) :
    ∃ k ptr heap', 0 < k ∧ (∀ j < k, 16 + 2 ^ j * (s - 16) < n) ∧
      sizeAfter s k = 16 + 2 ^ k * (s - 16) ∧ n ≤ sizeAfter s k ∧
      myMalloc host (k + 1) heap n = .returned (ptr, heap') ∧
      heap'.memoryPool = (poolAfter host heap s k).memoryPool ∧ InCurrentPool heap' ptr n := by
  obtain ⟨k, hreach, hfirst⟩ : ∃ k, n ≤ 16 + 2 ^ k * (s - 16) ∧
      ∀ j < k, 16 + 2 ^ j * (s - 16) < n :=
    ⟨Nat.find (grows_over hs hn), Nat.find_spec (grows_over hs hn),
      fun j hj => Nat.not_le.mp (Nat.find_min (grows_over hs hn) hj)⟩
  have hsize : ∀ j ≤ k, sizeAfter s j = 16 + 2 ^ j * (s - 16) := fun j hj =>
    sizeAfter_grows hs fun i hi => Nat.lt_of_lt_of_le (hfirst i (by omega)) hn
  cases k with
  | zero => omega
  | succ k =>
      have hlast := hcame (k + 1) fun j hj => by
        rw [hsize j (Nat.le_of_lt hj)]
        exact hfirst j hj
      have hfits : n ≤ sizeAfter s (k + 1) := by
        rw [hsize (k + 1) (Nat.le_refl _)]
        exact hreach
      have hroom : sizeofBlock ≤ mul64 (sizeAfter s k) 2 := by
        have hbound := hfirst k (Nat.lt_succ_self k)
        rw [hsize k (Nat.le_succ k), mul64_eq (by omega)]
        simp only [sizeofBlock]
        omega
      exact ⟨k + 1, _, _, Nat.succ_pos k, hfirst, hsize (k + 1) (Nat.le_refl _), hfits,
        hlast.returns (Nat.succ_pos k) hfits, serve_memoryPool _ _, hlast.in_pool hroom hfits⟩

theorem stays_too_small (hcame : ∀ k, (∀ j < k, sizeAfter 16 j < n) → CameTo host heap n 16 k)
    (hbelow : 16 < n) (depth : Nat) : myMalloc host depth heap n = .running := by
  have hall := hcame depth fun j _ => by
    rw [sizeAfter_stays]
    exact hbelow
  have hcalls := hall.calls 0
  rwa [Nat.zero_add] at hcalls

/-- From less than 16 bytes it returns from a pool that is smaller than its header. -/
theorem falls_until (hcame : ∀ k, (∀ j < k, sizeAfter s j < n) → CameTo host heap n s k)
    (hbelow : s < n) (hs : s < 16) (hn : n ≤ 2 ^ 62) :
    ∃ k ptr heap', k < 5 ∧ (∀ j ≤ k, sizeAfter s j < n) ∧
      mul64 (sizeAfter s k) 2 < sizeofBlock ∧ 2 ^ 64 - 16 ≤ sizeAfter s (k + 1) ∧
      myMalloc host (k + 2) heap n = .returned (ptr, heap') ∧
      ptr = add64 (poolAfter host heap s (k + 1)).memoryPool sizeofBlock := by
  obtain ⟨k, hk, hall, hheader, hwraps⟩ := sizeAfter_falls s hs
  have hsmall : ∀ j ≤ k, sizeAfter s j < n := fun j hj =>
    Nat.lt_of_le_of_lt (hall j hj) hbelow
  have hlast := hcame (k + 1) fun j hj => hsmall j (Nat.le_of_lt_succ hj)
  exact ⟨k, _, _, hk, hsmall, hheader, hwraps, hlast.returns (Nat.succ_pos k) (by omega), rfl⟩

/-- A chain whose blocks are all too small for the request, the last of them of size `s`: the
call makes pools of a single block of `sizeAfter s 1`, `sizeAfter s 2` and so on bytes until
one is large enough. From more than 16 bytes that is the first with `16 + 2 ^ k * (s - 16)`
bytes, from 16 there is none, and from less it is one without room for its header. -/
theorem growth_from_last_block (host : Host) (hsucceeds : AlwaysSucceeds host) (heap : Heap)
    (chain : List Nat) (last n s : Nat) (hlinks : Links heap.mem heap.memoryPool chain)
    (hlast : chain.getLast? = some last) (hsize : blockSize heap.mem last = s)
    (hsmall : ∀ b ∈ chain, blockSize heap.mem b < n) (hn : n ≤ 2 ^ 62) :
    (∀ k, (∀ j < k, sizeAfter s j < n) → CameTo host heap n s k) ∧
      (16 < s → ∃ k ptr heap', 0 < k ∧ (∀ j < k, 16 + 2 ^ j * (s - 16) < n) ∧
        sizeAfter s k = 16 + 2 ^ k * (s - 16) ∧ n ≤ sizeAfter s k ∧
        myMalloc host (k + 1) heap n = .returned (ptr, heap') ∧
        heap'.memoryPool = (poolAfter host heap s k).memoryPool ∧ InCurrentPool heap' ptr n) ∧
      (s = 16 → ∀ depth, myMalloc host depth heap n = .running) ∧
      (s < 16 → ∃ k ptr heap', k < 5 ∧ (∀ j ≤ k, sizeAfter s j < n) ∧
        mul64 (sizeAfter s k) 2 < sizeofBlock ∧ 2 ^ 64 - 16 ≤ sizeAfter s (k + 1) ∧
        myMalloc host (k + 2) heap n = .returned (ptr, heap') ∧
        ptr = add64 (poolAfter host heap s (k + 1)).memoryPool sizeofBlock) := by
  have hbelow : s < n := by
    rw [← hsize]
    exact hsmall last (List.mem_of_getLast? hlast)
  have hcame : ∀ k, (∀ j < k, sizeAfter s j < n) → CameTo host heap n s k := by
    rw [← hsize]
    exact cameTo hsucceeds hlinks hlast hsmall hn
  refine ⟨hcame, fun hs => grows_until hcame hbelow hs hn, fun hs => ?_,
    fun hs => falls_until hcame hbelow hs hn⟩
  rw [hs] at hcame hbelow
  exact stays_too_small hcame hbelow

/-- A host that hands out one address after the other, and the first again after the last. -/
def ringHost : Host := fun regions size =>
  if bumpHost regions size = 0 then 8192 else bumpHost regions size

theorem ringHost_succeeds : AlwaysSucceeds ringHost := by
  intro regions size hsize
  by_cases hnull : bumpHost regions size = 0
  · rw [ringHost, if_pos hnull]
    omega
  · rw [ringHost, if_neg hnull]
    exact ⟨hnull, (bumpHost_ok.bounds regions size hnull).1⟩

/-- A single block of 80 bytes, and a request of 100. -/
theorem growth_from_last_block_small :
    ∃ k ptr heap', myMalloc ringHost (k + 1) smallPool 100 = .returned (ptr, heap') ∧
      InCurrentPool heap' ptr 100 := by
  have hsize : blockSize smallPool.mem 8192 = 80 := by decide +kernel
  have hnext : blockNext smallPool.mem 8192 = 0 := by decide +kernel
  have hlinks : Links smallPool.mem 8192 [8192] := .cons (by decide) (by decide) (by
    rw [hnext]
    exact .nil)
  have hsmall : ∀ b ∈ [8192], blockSize smallPool.mem b < 100 := fun b hb => by
    rw [List.mem_singleton.mp hb, hsize]
    decide
  obtain ⟨-, hgrows, -, -⟩ := growth_from_last_block ringHost ringHost_succeeds smallPool [8192]
    8192 100 80 hlinks rfl hsize hsmall (by decide)
  obtain ⟨k, ptr, heap', -, -, -, -, hcall, -, hin⟩ := hgrows (by decide)
  exact ⟨k, ptr, heap', hcall, hin⟩

end LinuxTraining.Allocator
