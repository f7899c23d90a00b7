import LinuxTraining.Library.Memory

/-!
The pool allocator of `my_malloc.c`. The model works on the bytes of the
process memory, so a header and the payload it sits in are one thing. Host
`malloc` is a parameter that sees what it handed out before. `regions` and
`headers` are history that no operation reads: what the host returned, and
where a `block_t` was ever written.
-/
namespace LinuxTraining.Allocator
open Memory

def defaultSize : Nat := 4096

/-- `sizeof(block_t)`: the words `size` and `next`. -/
def sizeofBlock : Nat := 16

structure Heap where
  mem : Bytes
  memoryPool : Nat
  regions : List (Nat × Nat)
  headers : List Nat

def blockSize (mem : Bytes) (block : Nat) : Nat := load64 mem block

def blockNext (mem : Bytes) (block : Nat) : Nat := load64 mem (block + 8)

def setSize (mem : Bytes) (block size : Nat) : Bytes := store64 mem block size

def setNext (mem : Bytes) (block next : Nat) : Bytes := store64 mem (block + 8) next

/-- Host `malloc`: from its past answers and the requested size to an address,
0 standing for `NULL`. -/
abbrev Host := List (Nat × Nat) → Nat → Nat

/-- What a call does: it returns, it ends the process, or it is still running
after the given number of pools. -/
inductive Outcome (α : Type) where
  | returned (value : α)
  | exited
  | running

def initializeMemoryPool (host : Host) (heap : Heap) (size : Nat) : Option Heap :=
  let pool := host heap.regions size
  if pool = 0 then none
  else
    let mem := setSize heap.mem pool (sub64 size sizeofBlock)
    let mem := setNext mem pool 0
    some ⟨mem, pool, (pool, size) :: heap.regions, pool :: heap.headers⟩

inductive Search where
  | found (currentBlock : Nat)
  | exhausted (previousBlock : Nat)
  | endless

/-- The `while (current_block)` loop, for at most `turns` turns. -/
def search (mem : Bytes) (size : Nat) : (turns currentBlock previousBlock : Nat) → Search
  | 0, _, _ => .endless
  | turns + 1, currentBlock, previousBlock =>
      if currentBlock = 0 then .exhausted previousBlock
      else if size ≤ blockSize mem currentBlock then .found currentBlock
      else search mem size turns (blockNext mem currentBlock) currentBlock

def serve (heap : Heap) (currentBlock size : Nat) : Heap :=
  if add64 size sizeofBlock < blockSize heap.mem currentBlock then
    let newBlock := add64 (add64 currentBlock sizeofBlock) size
    let mem := setSize heap.mem newBlock
      (sub64 (sub64 (blockSize heap.mem currentBlock) size) sizeofBlock)
    let mem := setNext mem newBlock (blockNext mem currentBlock)
    let mem := setSize mem currentBlock size
    let mem := setNext mem currentBlock newBlock
    { heap with mem := mem, headers := newBlock :: heap.headers }
  else heap

/-- The body of `my_malloc` once a pool exists; `retry` is the recursive call of
its last line. A chain has at most `wordSize` blocks unless it loops, so a longer
search never ends. -/
def allocate (host : Host) (retry : Heap → Outcome (Nat × Heap)) (heap : Heap) (size : Nat) :
    Outcome (Nat × Heap) :=
  match search heap.mem size wordSize heap.memoryPool 0 with
  | .found currentBlock =>
      .returned (add64 currentBlock sizeofBlock, serve heap currentBlock size)
  | .endless => .running
  | .exhausted previousBlock =>
      let poolSize :=
        if previousBlock = 0 then defaultSize
        else mul64 (blockSize heap.mem previousBlock) 2
      match initializeMemoryPool host heap poolSize with
      | none => .exited
      | some heap => retry heap

/-- `my_malloc`, whose recursion is followed for `depth` calls. -/
def myMalloc (host : Host) : (depth : Nat) → Heap → (size : Nat) → Outcome (Nat × Heap)
  | 0, _, _ => .running
  | depth + 1, heap, size =>
      if heap.memoryPool = 0 then
        match initializeMemoryPool host heap defaultSize with
        | none => .exited
        | some heap => allocate host (fun heap => myMalloc host depth heap size) heap size
      else allocate host (fun heap => myMalloc host depth heap size) heap size

def myFree (heap : Heap) (ptr : Nat) : Heap :=
  if ptr = 0 then heap
  else { heap with mem := setNext heap.mem (sub64 ptr sizeofBlock) 0 }

def myRealloc (host : Host) (depth : Nat) (heap : Heap) (ptr size : Nat) :
    Outcome (Nat × Heap) :=
  if ptr = 0 then myMalloc host depth heap size
  else if size = 0 then .returned (0, myFree heap ptr)
  else
    match myMalloc host depth heap size with
    | .exited => .exited
    | .running => .running
    | .returned (newPtr, heap) =>
        if newPtr = 0 then .returned (newPtr, heap)
        else
          let oldSize := blockSize heap.mem (sub64 ptr sizeofBlock)
          let copySize := if size < oldSize then size else oldSize
          let heap := { heap with mem := copy heap.mem newPtr ptr copySize }
          .returned (newPtr, myFree heap ptr)

def chainFrom (mem : Bytes) : (turns block : Nat) → List Nat
  | 0, _ => []
  | turns + 1, block =>
      if block = 0 then [] else block :: chainFrom mem turns (blockNext mem block)

def Heap.chain (heap : Heap) : List Nat := chainFrom heap.mem wordSize heap.memoryPool

def extent (mem : Bytes) (block : Nat) : Nat := sizeofBlock + blockSize mem block

theorem search_found_iff (mem : Bytes) (size turns block previous found : Nat) :
    search mem size turns block previous = .found found ↔
      (chainFrom mem turns block).find? (fun b => decide (size ≤ blockSize mem b)) =
        some found := by
  induction turns generalizing block previous with
  | zero => simp [search, chainFrom]
  | succ turns ih =>
      by_cases hnull : block = 0
      · simp [search, chainFrom, hnull]
      · by_cases hfits : size ≤ blockSize mem block
        · simp [search, chainFrom, hnull, hfits]
        · simp [search, chainFrom, hnull, hfits, ih]

theorem search_exhausted (mem : Bytes) {size turns block previous last : Nat}
    (h : search mem size turns block previous = .exhausted last) :
    (chainFrom mem turns block).find? (fun b => decide (size ≤ blockSize mem b)) = none ∧
      last = ((chainFrom mem turns block).getLast?).getD previous := by
  induction turns generalizing block previous with
  | zero => simp [search] at h
  | succ turns ih =>
      by_cases hnull : block = 0
      · simp only [search, hnull, if_true, Search.exhausted.injEq] at h
        simp [chainFrom, hnull, h]
      · by_cases hfits : size ≤ blockSize mem block
        · simp [search, hnull, hfits] at h
        · simp only [search, hnull, hfits, if_false] at h
          obtain ⟨hnone, hlast⟩ := ih h
          refine ⟨by simpa [chainFrom, hnull, hfits] using hnone, ?_⟩
          rw [hlast]
          simp [chainFrom, hnull, List.getLast?_cons]

end LinuxTraining.Allocator
