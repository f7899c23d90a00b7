import Mathlib.Data.List.Basic
import Mathlib.Data.List.TakeWhile
import Mathlib.Tactic.Common

/-!
A buffered input stream. The buffer is filled by reads of the descriptor below, each of
which gives what has come so far; a read that gives nothing is the end of the input,
and stays so.
-/
namespace InputStream

/-- What is in the buffer, what the next reads will give, and the last character that
has been handed out. -/
structure Stream where
  buffer : List Char
  pending : List (List Char)
  last : Option Char
  deriving DecidableEq

def opened (script : List (List Char)) : Stream := ⟨[], script, none⟩

def Stream.remaining (s : Stream) : List Char :=
  s.buffer ++ (s.pending.takeWhile fun chunk => chunk ≠ []).flatten

/-- The next character; `none` is `EOF`. -/
def getchar (s : Stream) : Option Char × Stream :=
  match s.buffer, s.pending with
  | c :: rest, _ => (some c, { s with buffer := rest, last := some c })
  | [], (c :: rest) :: more => (some c, ⟨rest, more, some c⟩)
  | [], [] :: _ | [], [] => (none, s)

/-- `__fpurge`: what is in the buffer is lost. -/
def fpurge (s : Stream) : Stream := { s with buffer := [] }

/-- `fgets` with room for `room` characters and the terminator; an empty line is `NULL`. -/
def fgets : (room : Nat) → Stream → List Char × Stream
  | 0, s => ([], s)
  | room + 1, s =>
      match getchar s with
      | (none, s) => ([], s)
      | (some c, s) =>
          if c = '\n' then ([c], s)
          else
            let (line, s) := fgets room s
            (c :: line, s)

variable {s t : Stream} {c : Char}

theorem getchar_some (h : getchar s = (some c, t)) :
    s.remaining = c :: t.remaining ∧ t.last = some c := by
  simp only [getchar] at h
  split at h
  · rename_i hbuffer
    simp only [Prod.mk.injEq, Option.some.injEq] at h
    obtain ⟨rfl, rfl⟩ := h
    simp [Stream.remaining, hbuffer]
  · rename_i hbuffer hpending
    simp only [Prod.mk.injEq, Option.some.injEq] at h
    obtain ⟨rfl, rfl⟩ := h
    simp [Stream.remaining, hbuffer, hpending]
  · cases h
  · cases h

theorem getchar_none (h : getchar s = (none, t)) : s.remaining = [] ∧ t = s := by
  simp only [getchar] at h
  split at h
  · cases h
  · cases h
  · rename_i hbuffer hpending
    exact ⟨by simp [Stream.remaining, hbuffer, hpending], (Prod.mk.inj h).2.symm⟩
  · rename_i hbuffer hpending
    exact ⟨by simp [Stream.remaining, hbuffer, hpending], (Prod.mk.inj h).2.symm⟩

/-- A loop over `getchar` ends. -/
theorem remaining_lt (h : getchar s = (some c, t)) : t.remaining.length < s.remaining.length := by
  rw [(getchar_some h).1]
  exact Nat.lt_succ_self _

end InputStream
