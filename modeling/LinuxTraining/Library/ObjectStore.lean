import LinuxTraining.Library.Execution
import Mathlib.Logic.Function.Basic

/-!
What an allocator is for. A store holds objects that never overlap; each has a start address,
a size and, at every offset, the byte last put there, if any was. A memory represents a store
when it has the bytes that the store knows.
-/
namespace ObjectStore
open Execution

structure Object (β : Type*) where
  size : Nat
  contents : Nat → Option β

abbrev Store (β : Type*) := Nat → Option (Object β)

inductive Op (β : Type*) where
  | create (start size : Nat)
  | destroy (start : Nat)
  | move (start target size : Nat)
  | put (address : Nat) (byte : β)

variable {β : Type*} {store : Store β}

def empty : Store β := fun _ => none

def Vacant (store : Store β) (start size : Nat) : Prop :=
  store start = none ∧
    ∀ p o, store p = some o → start + size ≤ p ∨ p + o.size ≤ start

def Object.At (o : Object β) (p address : Nat) : Prop := p ≤ address ∧ address < p + o.size

instance (o : Object β) (p address : Nat) : Decidable (o.At p address) :=
  inferInstanceAs (Decidable (_ ∧ _))

def Object.fresh (size : Nat) : Object β := ⟨size, fun _ => none⟩

def Object.resize (o : Object β) (size : Nat) : Object β :=
  ⟨size, fun i => if i < o.size then o.contents i else none⟩

def Object.put (o : Object β) (i : Nat) (byte : β) : Object β :=
  { o with contents := Function.update o.contents i (some byte) }

theorem Object.contents_put (o : Object β) (i j : Nat) (byte : β) :
    (o.put i byte).contents j = if j = i then some byte else o.contents j := by
  by_cases hji : j = i
  · rw [if_pos hji, hji]
    exact Function.update_self ..
  · rw [if_neg hji]
    exact Function.update_of_ne hji ..

def putAt (store : Store β) (address : Nat) (byte : β) : Store β := fun p =>
  (store p).map fun o => if o.At p address then o.put (address - p) byte else o

open Classical in
noncomputable def step (store : Store β) : Op β → Option (Store β)
  | .create start size =>
      if Vacant store start size then
        some (Function.update store start (some (Object.fresh size)))
      else none
  | .destroy start =>
      if (store start).isSome then some (Function.update store start none) else none
  | .move start target size =>
      match store start with
      | none => none
      | some o =>
          let rest := Function.update store start none
          if Vacant rest target size then
            some (Function.update rest target (some (o.resize size)))
          else none
  | .put address byte =>
      if ∃ p o, store p = some o ∧ o.At p address then some (putAt store address byte) else none

theorem step_move {start target size : Nat} {o : Object β} (h : store start = some o)
    (hvacant : Vacant (Function.update store start none) target size) :
    step store (.move start target size) = some (Function.update
      (Function.update store start none) target (some (o.resize size))) := by
  simp only [step, h, if_pos hvacant]

def Apart (store : Store β) : Prop :=
  ∀ p o q o', store p = some o → store q = some o' → p ≠ q →
    p + o.size ≤ q ∨ q + o'.size ≤ p

def Represents (mem : Nat → β) (store : Store β) : Prop :=
  ∀ p o, store p = some o → ∀ i, i < o.size → ∀ byte, o.contents i = some byte →
    mem (p + i) = byte

theorem Apart.erase (h : Apart store) (p : Nat) : Apart (Function.update store p none) := by
  intro q o q' o' hq hq' hne
  by_cases hqp : q = p
  · rw [hqp, Function.update_self] at hq
    cases hq
  · by_cases hqp' : q' = p
    · rw [hqp', Function.update_self] at hq'
      cases hq'
    · rw [Function.update_of_ne hqp] at hq
      rw [Function.update_of_ne hqp'] at hq'
      exact h q o q' o' hq hq' hne

theorem Apart.insert (h : Apart store) {start : Nat} {new : Object β}
    (hvacant : Vacant store start new.size) :
    Apart (Function.update store start (some new)) := by
  intro q o q' o' hq hq' hne
  by_cases hqs : q = start
  · rw [hqs, Function.update_self] at hq
    cases hq
    rw [Function.update_of_ne (by omega)] at hq'
    rw [hqs]
    exact hvacant.2 q' o' hq'
  · rw [Function.update_of_ne hqs] at hq
    by_cases hqs' : q' = start
    · rw [hqs', Function.update_self] at hq'
      cases hq'
      rw [hqs']
      exact (hvacant.2 q o hq).symm
    · rw [Function.update_of_ne hqs'] at hq'
      exact h q o q' o' hq hq' hne

theorem putAt_some {address p : Nat} {byte : β} {o : Object β}
    (h : putAt store address byte p = some o) :
    ∃ before, store p = some before ∧
      o = if before.At p address then before.put (address - p) byte else before := by
  obtain ⟨before, hbefore, rfl⟩ := Option.map_eq_some_iff.mp h
  exact ⟨before, hbefore, rfl⟩

theorem size_putAt {address p : Nat} {byte : β} (before : Object β) :
    (if before.At p address then before.put (address - p) byte else before).size =
      before.size := by
  split <;> rfl

theorem Apart.putAt (h : Apart store) (address : Nat) (byte : β) :
    Apart (putAt store address byte) := by
  intro q o q' o' hq hq' hne
  obtain ⟨before, hbefore, rfl⟩ := putAt_some hq
  obtain ⟨before', hbefore', rfl⟩ := putAt_some hq'
  rw [size_putAt, size_putAt]
  exact h q before q' before' hbefore hbefore' hne

theorem Apart.step (s : Store β) (op : Op β) (t : Store β) (h : Apart s)
    (hstep : step s op = some t) : Apart t := by
  cases op with
  | create start size =>
      simp only [ObjectStore.step] at hstep
      split at hstep
      · cases hstep
        rename_i hvacant
        exact h.insert hvacant
      · cases hstep
  | destroy start =>
      simp only [ObjectStore.step] at hstep
      split at hstep
      · cases hstep
        exact h.erase start
      · cases hstep
  | move start target size =>
      simp only [ObjectStore.step] at hstep
      split at hstep
      · cases hstep
      · split at hstep
        · cases hstep
          rename_i hvacant
          exact (h.erase start).insert hvacant
        · cases hstep
  | put address byte =>
      simp only [ObjectStore.step] at hstep
      split at hstep
      · cases hstep
        exact h.putAt address byte
      · cases hstep

variable {mem mem' : Nat → β}

theorem Represents.empty : Represents mem (empty : Store β) := by
  intro p o hp
  cases hp

theorem Represents.erase (h : Represents mem store) {start : Nat}
    (kept : ∀ p o, store p = some o → p ≠ start → ∀ i, i < o.size → mem' (p + i) = mem (p + i)) :
    Represents mem' (Function.update store start none) := by
  intro p o hp i hi byte hbyte
  by_cases hps : p = start
  · rw [hps, Function.update_self] at hp
    cases hp
  · rw [Function.update_of_ne hps] at hp
    rw [kept p o hp hps i hi]
    exact h p o hp i hi byte hbyte

theorem Represents.insert (h : Represents mem' store) {start : Nat} {new : Object β}
    (known : ∀ i, i < new.size → ∀ byte, new.contents i = some byte →
      mem' (start + i) = byte) :
    Represents mem' (Function.update store start (some new)) := by
  intro p o hp i hi byte hbyte
  by_cases hps : p = start
  · rw [hps, Function.update_self] at hp
    cases hp
    rw [hps]
    exact known i hi byte hbyte
  · rw [Function.update_of_ne hps] at hp
    exact h p o hp i hi byte hbyte

theorem Represents.putAt (h : Represents mem store) {address : Nat} {byte : β}
    (written : mem' address = byte) (kept : ∀ x, x ≠ address → mem' x = mem x) :
    Represents mem' (putAt store address byte) := by
  intro p o hp i hi b hb
  obtain ⟨before, hbefore, rfl⟩ := putAt_some hp
  rw [size_putAt] at hi
  by_cases hat : before.At p address
  · rw [if_pos hat] at hb
    by_cases hia : i = address - p
    · rw [Object.contents_put, if_pos hia, Option.some.injEq] at hb
      have haddress : p + i = address := by
        have := hat.1
        omega
      rw [haddress, written, hb]
    · rw [Object.contents_put, if_neg hia] at hb
      rw [kept (p + i) (by omega)]
      exact h p before hbefore i hi b hb
  · rw [if_neg hat] at hb
    rw [kept (p + i) fun hx => hat ⟨by omega, by omega⟩]
    exact h p before hbefore i hi b hb

end ObjectStore
