import Mathlib.Data.Nat.Basic
import Mathlib.Tactic.Common
import Mathlib.Tactic.Ring

/-!
Byte-addressed memory and unsigned 64-bit machine words. A word occupies eight
consecutive bytes, least significant byte first; arithmetic on words is modulo
`2 ^ 64`. Every read and write comes with the frame rule that says which bytes
it depends on or changes.
-/
namespace Memory

def wordSize : Nat := 2 ^ 64

/-- Unsigned 64-bit arithmetic, with its wrap-around. -/
def add64 (a b : Nat) : Nat := (a + b) % wordSize

def sub64 (a b : Nat) : Nat := (a + (wordSize - b % wordSize)) % wordSize

def mul64 (a b : Nat) : Nat := (a * b) % wordSize

theorem add64_eq {a b : Nat} (h : a + b < 2 ^ 64) : add64 a b = a + b :=
  Nat.mod_eq_of_lt h

theorem sub64_eq {a b : Nat} (h : b ≤ a) (ha : a < 2 ^ 64) : sub64 a b = a - b := by
  simp only [sub64, wordSize] at *
  omega

theorem mul64_eq {a b : Nat} (h : a * b < 2 ^ 64) : mul64 a b = a * b :=
  Nat.mod_eq_of_lt h

abbrev Bytes := Nat → UInt8

def loadLE (m : Bytes) (a : Nat) : Nat → Nat
  | 0 => 0
  | n + 1 => (m a).toNat + 256 * loadLE m (a + 1) n

def load64 (m : Bytes) (a : Nat) : Nat := loadLE m a 8

def store64 (m : Bytes) (a v : Nat) : Bytes := fun x =>
  if a ≤ x ∧ x < a + 8 then UInt8.ofNat (v / 256 ^ (x - a)) else m x

/-- `memcpy`: all bytes are read from the memory before the copy. -/
def copy (m : Bytes) (dst src n : Nat) : Bytes := fun x =>
  if dst ≤ x ∧ x < dst + n then m (src + (x - dst)) else m x

def store8 (m : Bytes) (a : Nat) (b : UInt8) : Bytes := fun x =>
  if x = a then b else m x

theorem loadLE_lt (m : Bytes) (a n : Nat) : loadLE m a n < 256 ^ n := by
  induction n generalizing a with
  | zero => simp [loadLE]
  | succ n ih =>
      have hb := (m a).toNat_lt
      have htail := ih (a + 1)
      simp only [loadLE, Nat.pow_succ]
      omega

theorem load64_lt (m : Bytes) (a : Nat) : load64 m a < 2 ^ 64 :=
  loadLE_lt m a 8

theorem loadLE_congr {m m' : Bytes} {a n : Nat}
    (h : ∀ x, a ≤ x → x < a + n → m' x = m x) : loadLE m' a n = loadLE m a n := by
  induction n generalizing a with
  | zero => rfl
  | succ n ih =>
      have hhead := h a (Nat.le_refl a) (by omega)
      have htail := ih (a := a + 1) fun x h1 h2 => h x (by omega) (by omega)
      simp only [loadLE, hhead, htail]

theorem load64_congr {m m' : Bytes} {a : Nat}
    (h : ∀ x, a ≤ x → x < a + 8 → m' x = m x) : load64 m' a = load64 m a :=
  loadLE_congr h

theorem loadLE_digits (v : Nat) (m : Bytes) (a n : Nat)
    (h : ∀ i, i < n → m (a + i) = UInt8.ofNat (v / 256 ^ i)) :
    loadLE m a n = v % 256 ^ n := by
  induction n generalizing a v with
  | zero => simp [loadLE, Nat.mod_one]
  | succ n ih =>
      have hhead : m a = UInt8.ofNat v := by simpa using h 0 (by omega)
      have htail := ih (v / 256) (a + 1) fun i hi => by
        have := h (i + 1) (by omega)
        rw [Nat.div_div_eq_div_mul, ← Nat.pow_succ', ← this]
        congr 1
        omega
      rw [loadLE, hhead, htail, Nat.pow_succ', Nat.mod_mul, UInt8.toNat_ofNat']

theorem load64_store64_same {m : Bytes} {a v : Nat} (hv : v < 2 ^ 64) :
    load64 (store64 m a v) a = v := by
  have hdigits := loadLE_digits v (store64 m a v) a 8 fun i hi => by
    simp [store64, hi]
  rw [load64, hdigits]
  exact Nat.mod_eq_of_lt hv

theorem store64_frame {m : Bytes} {a v x : Nat} (h : x < a ∨ a + 8 ≤ x) :
    store64 m a v x = m x := by
  unfold store64
  rw [if_neg (by omega)]

theorem load64_store64_frame {m : Bytes} {a b v : Nat} (h : b + 8 ≤ a ∨ a + 8 ≤ b) :
    load64 (store64 m a v) b = load64 m b :=
  load64_congr fun x h1 h2 => store64_frame (by omega)

theorem copy_frame {m : Bytes} {dst src n x : Nat} (h : x < dst ∨ dst + n ≤ x) :
    copy m dst src n x = m x := by
  unfold copy
  rw [if_neg (by omega)]

theorem store8_frame {m : Bytes} {a x : Nat} {b : UInt8} (h : x ≠ a) :
    store8 m a b x = m x :=
  if_neg h

end Memory
