import LinuxTraining.Allocator.Realloc
import LinuxTraining.Library.ObjectStore

/-!
The allocator keeps the contents of its objects. A run of a client is followed, call by call,
by a run of the abstract store, and the process memory has every byte that the store knows.
-/
namespace LinuxTraining.Allocator
open Memory Execution
open ObjectStore (Store Op Vacant Represents Object)

inductive Names : Event → Op UInt8 → Prop where
  | malloc (size depth ptr : Nat) : Names (.malloc size depth) (.create ptr size)
  | free (ptr : Nat) : Names (.free ptr) (.destroy ptr)
  | realloc (ptr size depth newPtr : Nat) :
      Names (.realloc ptr size depth) (.move ptr newPtr size)
  | write (addr : Nat) (byte : UInt8) : Names (.write addr byte) (.put addr byte)

/-- The objects of the store are the live allocations, and their bytes are in memory. -/
structure Refines (s : Client) (store : Store UInt8) : Prop where
  live : ∀ p size, (p, size) ∈ s.live ↔ ∃ o, store p = some o ∧ o.size = size
  represents : Represents s.heap.mem store

variable {host : Host} {s t : Client} {store : Store UInt8} {heap' : Heap}
  {size ptr c : Nat} {o : Object UInt8}

theorem mem_release_iff {live : List (Nat × Nat)} {e : Nat × Nat}
    (hdistinct : (live.map Prod.fst).Nodup) :
    e ∈ release live ptr ↔ e ∈ live ∧ e.1 ≠ ptr := by
  constructor
  · intro h
    exact ⟨mem_release h, released_ne hdistinct h⟩
  · intro h
    exact (List.mem_eraseP_of_neg (by simpa using h.2)).mpr h.1

theorem Separated.other_block (h : Separated s) (hserved : Served s.heap heap' size ptr c)
    {e : Nat × Nat} (he : e ∈ s.live) (hne : e.1 ≠ ptr) :
    ∃ a ∈ heap'.headers, a ≠ c ∧ e.1 = a + 16 ∧ e.2 ≤ blockSize heap'.mem a := by
  obtain ⟨a, ha, hea, hfits⟩ := h.block e he
  have hptr := hserved.ptr_eq
  have hac : a ≠ c := by omega
  obtain ⟨hmem, hkeep⟩ := hserved.old a ha
  refine ⟨a, hmem, hac, hea, ?_⟩
  rw [hkeep hac]
  exact hfits

theorem Separated.other_apart (h : Separated s) (hserved : Served s.heap heap' size ptr c)
    {e : Nat × Nat} (he : e ∈ s.live) (hne : e.1 ≠ ptr) :
    ptr + size ≤ e.1 ∨ e.1 + e.2 ≤ ptr := by
  obtain ⟨a, ha, hac, hea, hfits⟩ := h.other_block hserved he hne
  have hapart := hserved.wf.apart ha hserved.mem hac
  have hptr := hserved.ptr_eq
  have hroom := hserved.fits
  omega

theorem Separated.other_bytes (h : Separated s) (hserved : Served s.heap heap' size ptr c)
    {e : Nat × Nat} (he : e ∈ s.live) (hne : e.1 ≠ ptr) {i : Nat} (hi : i < e.2) :
    ∀ d ∈ heap'.headers, e.1 + i < d ∨ d + 16 ≤ e.1 + i := by
  obtain ⟨a, ha, _, hea, hfits⟩ := h.other_block hserved he hne
  exact hserved.wf.payload_off_headers ha (by omega) (by omega)

theorem Refines.object (h : Refines s store) {p : Nat} (hp : store p = some o) :
    (p, o.size) ∈ s.live :=
  (h.live p o.size).mpr ⟨o, hp, rfl⟩

theorem Refines.malloc (hostOk : HostOk host) {depth : Nat} {heap : Heap} (hs : Separated s)
    (h : Refines s store) (hfree : ServesFreeBlock s size 0)
    (hcall : myMalloc host depth s.heap size = .returned (ptr, heap)) :
    ∃ after, ObjectStore.step store (.create ptr size) = some after ∧
      Refines ⟨heap, (ptr, size) :: s.live, ptr :: s.returned⟩ after := by
  obtain ⟨c, hserved⟩ := myMalloc_spec hostOk hs.wf hfree.grows hcall
  obtain ⟨hpayloads, -⟩ := myMalloc_payloads hostOk hs.wf hfree.grows hcall
  have hother : ∀ e ∈ s.live, e.1 ≠ ptr := fun e he heq => by
    have hzero := hfree.address hs hserved e he heq
    have hptr := hserved.ptr_eq
    omega
  have hvacant : Vacant store ptr size := by
    constructor
    · cases hat : store ptr with
      | none => rfl
      | some o => exact absurd rfl (hother _ (h.object hat))
    · intro p o hp
      exact hs.other_apart hserved (h.object hp) (hother _ (h.object hp))
  refine ⟨_, if_pos hvacant, ?_, ?_⟩
  · intro p n
    by_cases hpp : p = ptr
    · rw [hpp, Function.update_self, List.mem_cons]
      constructor
      · intro hmem
        cases hmem with
        | inl hnew => exact ⟨_, rfl, (Prod.mk.inj hnew).2.symm⟩
        | inr hold => exact absurd rfl (hother _ hold)
      · intro hobject
        obtain ⟨o, ho, rfl⟩ := hobject
        cases ho
        exact Or.inl rfl
    · rw [Function.update_of_ne hpp, ← h.live p n, List.mem_cons]
      refine or_iff_right fun hnew => hpp ?_
      exact (Prod.mk.inj hnew).1
  · have hkept : Represents heap.mem store := by
      intro p o hp i hi byte hbyte
      have hlive := h.object hp
      rw [hpayloads (p + i) (hs.other_bytes hserved hlive (hother _ hlive) hi)]
      exact h.represents p o hp i hi byte hbyte
    exact hkept.insert fun i _ byte hbyte => by cases hbyte

theorem Refines.erased (hs : Separated s) (h : Refines s store) (p n : Nat) :
    (p, n) ∈ release s.live ptr ↔
      ∃ o, Function.update store ptr none p = some o ∧ o.size = n := by
  rw [mem_release_iff hs.distinct]
  by_cases hpp : p = ptr
  · rw [hpp, Function.update_self]
    constructor
    · intro hmem
      exact absurd rfl hmem.2
    · intro hobject
      obtain ⟨o, ho, -⟩ := hobject
      cases ho
  · rw [Function.update_of_ne hpp, ← h.live p n]
    exact and_iff_left hpp

theorem Refines.free (hs : Separated s) (h : Refines s store)
    (hlive : ∃ e ∈ s.live, e.1 = ptr) :
    ∃ after, ObjectStore.step store (.destroy ptr) = some after ∧
      Refines ⟨myFree s.heap ptr, release s.live ptr, s.returned⟩ after := by
  obtain ⟨e, he, rfl⟩ := hlive
  obtain ⟨o, ho, -⟩ := (h.live e.1 e.2).mp he
  obtain ⟨a, ha, hea, -⟩ := hs.block e he
  refine ⟨_, if_pos (by rw [ho]; rfl), h.erased hs, ?_⟩
  refine h.represents.erase fun p o hp hne i hi => ?_
  obtain ⟨b, hb, hpb, hfits⟩ := hs.block _ (h.object hp)
  rw [hea, myFree_block hs.wf ha]
  refine setNext_frame ?_
  exact hs.wf.payload_off_headers hb (by omega) (by omega) a ha

theorem Refines.realloc (hostOk : HostOk host) {depth newPtr : Nat} {heap : Heap}
    (hs : Separated s) (h : Refines s store) (hlive : ∃ e ∈ s.live, e.1 = ptr)
    (hsize : 1 ≤ size) (hfree : ServesFreeBlock s size ptr)
    (hcall : myRealloc host depth s.heap ptr size = .returned (newPtr, heap)) :
    newPtr ≠ 0 ∧ ∃ after, ObjectStore.step store (.move ptr newPtr size) = some after ∧
      Refines ⟨heap, (newPtr, size) :: release s.live ptr, newPtr :: s.returned⟩ after := by
  obtain ⟨e, he, rfl⟩ := hlive
  obtain ⟨o, ho, hoe⟩ := (h.live e.1 e.2).mp he
  obtain ⟨a, ha, hea, hafits⟩ := hs.block e he
  rw [hea] at hcall
  have hcopied := myRealloc_contents hostOk hs.wf ha (by omega) hfree.grows hcall
  obtain ⟨c, hserved⟩ := hcopied.served
  have hptr := hserved.ptr_eq
  have hother : ∀ f ∈ s.live, f.1 ≠ e.1 → f.1 ≠ newPtr := fun f hf hne heq =>
    hne (hfree.address hs hserved f hf heq)
  -- the objects that stay, once the old one is out of the way
  have hrest : ∀ p o', Function.update store e.1 none p = some o' →
      p ≠ e.1 ∧ store p = some o' := by
    intro p o' hp
    by_cases hpe : p = e.1
    · rw [hpe, Function.update_self] at hp
      cases hp
    · rw [Function.update_of_ne hpe] at hp
      exact ⟨hpe, hp⟩
  have hvacant : Vacant (Function.update store e.1 none) newPtr size := by
    constructor
    · cases hat : Function.update store e.1 none newPtr with
      | none => rfl
      | some o' =>
          obtain ⟨hne, hstore⟩ := hrest newPtr o' hat
          exact absurd rfl (hother _ (h.object hstore) hne)
    · intro p o' hp
      obtain ⟨hne, hstore⟩ := hrest p o' hp
      have hmem := h.object hstore
      exact hs.other_apart hserved hmem (hother _ hmem hne)
  refine ⟨by omega, _, ObjectStore.step_move ho hvacant, ?_, ?_⟩
  · intro p n
    by_cases hpp : p = newPtr
    · rw [hpp, Function.update_self, List.mem_cons]
      constructor
      · intro hmem
        cases hmem with
        | inl hnew => exact ⟨_, rfl, (Prod.mk.inj hnew).2.symm⟩
        | inr hold =>
            have hboth := (mem_release_iff hs.distinct).mp hold
            exact absurd rfl (hother _ hboth.1 hboth.2)
      · intro hobject
        obtain ⟨o', ho', rfl⟩ := hobject
        cases ho'
        exact Or.inl rfl
    · rw [Function.update_of_ne hpp, ← h.erased hs p n, List.mem_cons]
      refine or_iff_right fun hnew => hpp ?_
      exact (Prod.mk.inj hnew).1
  · have hkept : Represents heap.mem (Function.update store e.1 none) := by
      refine h.represents.erase fun p o' hp hne i hi => ?_
      have hmem := h.object hp
      have hapart := hs.other_apart hserved hmem (hother _ hmem hne)
      exact hcopied.others _ (hs.other_bytes hserved hmem (hother _ hmem hne) hi) (by omega)
    refine hkept.insert fun i hi byte hbyte => ?_
    simp only [Object.resize] at hi hbyte
    split at hbyte
    · rename_i hio
      rw [hcopied.contents i (by omega), ← hea]
      exact h.represents e.1 o ho i hio byte hbyte
    · cases hbyte

theorem Refines.write (h : Refines s store) {addr : Nat} {byte : UInt8}
    (hlive : ∃ e ∈ s.live, e.1 ≤ addr ∧ addr < e.1 + e.2) :
    ∃ after, ObjectStore.step store (.put addr byte) = some after ∧
      Refines { s with heap := { s.heap with mem := store8 s.heap.mem addr byte } } after := by
  obtain ⟨e, he, hlow, hhigh⟩ := hlive
  obtain ⟨o, ho, hoe⟩ := (h.live e.1 e.2).mp he
  refine ⟨_, if_pos ⟨e.1, o, ho, hlow, by omega⟩, ?_, ?_⟩
  · intro p n
    rw [h.live p n]
    constructor
    · intro hobject
      obtain ⟨before, hp, rfl⟩ := hobject
      exact ⟨_, congrArg (Option.map _) hp, ObjectStore.size_putAt before⟩
    · intro hobject
      obtain ⟨after, hp, rfl⟩ := hobject
      obtain ⟨before, hbefore, rfl⟩ := ObjectStore.putAt_some hp
      exact ⟨before, hbefore, (ObjectStore.size_putAt before).symm⟩
  · exact h.represents.putAt (if_pos rfl) fun x hx => store8_frame hx

theorem Refines.step (hostOk : HostOk host) (s : Client) (event : Event) (t : Client)
    (store : Store UInt8) (h : Separated s ∧ Refines s store)
    (hstep : Obeys s event ∧ Unshared s event) (hrun : step host s event = some t) :
    ∃ op after, ObjectStore.step store op = some after ∧ Names event op ∧
      Separated t ∧ Refines t after := by
  obtain ⟨hs, h⟩ := h
  have hnext := Separated.step hostOk s event t hs hstep hrun
  obtain ⟨hobeys, hfree⟩ := hstep
  cases event with
  | malloc size depth =>
      obtain ⟨ptr, heap, hcall, rfl⟩ := step_malloc hrun
      obtain ⟨after, hop, hafter⟩ := h.malloc hostOk hs hfree hcall
      exact ⟨_, after, hop, .malloc size depth ptr, hnext, hafter⟩
  | free ptr =>
      simp only [Allocator.step, Option.some.injEq] at hrun
      subst hrun
      obtain ⟨after, hop, hafter⟩ := h.free hs hobeys
      exact ⟨_, after, hop, .free ptr, hnext, hafter⟩
  | realloc ptr size depth =>
      obtain ⟨newPtr, heap, hcall, rfl⟩ := step_realloc hrun
      obtain ⟨hnull, after, hop, hafter⟩ :=
        h.realloc hostOk hs hobeys.1 hobeys.2.1 hfree hcall
      rw [if_neg hnull] at hnext ⊢
      exact ⟨_, after, hop, .realloc ptr size depth newPtr, hnext, hafter⟩
  | write addr byte =>
      simp only [Allocator.step, Option.some.injEq] at hrun
      subst hrun
      obtain ⟨after, hop, hafter⟩ := h.write hobeys
      exact ⟨_, after, hop, .write addr byte, hnext, hafter⟩

end LinuxTraining.Allocator
