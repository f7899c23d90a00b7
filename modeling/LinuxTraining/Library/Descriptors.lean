import Mathlib.Data.List.Basic
import Mathlib.Data.Option.Basic
import Mathlib.Tactic.Common

/-!
The table of open files of a process: each entry is free or holds a file, and a new file gets
the lowest entry that is free.
-/
namespace Descriptors
variable {α : Type*}

abbrev Table (α : Type*) := List (Option α)

def lookup : Table α → Nat → Option α
  | [], _ => none
  | entry :: _, 0 => entry
  | _ :: table, fd + 1 => lookup table fd

def lowestFree : Table α → Nat
  | [] => 0
  | none :: _ => 0
  | some _ :: table => lowestFree table + 1

/-- The table with a file at one entry, made long enough for it. -/
def put (a : α) : Table α → Nat → Table α
  | [], 0 => [some a]
  | [], fd + 1 => none :: put a [] fd
  | _ :: table, 0 => some a :: table
  | entry :: table, fd + 1 => entry :: put a table fd

def opened (a : α) (table : Table α) : Table α := put a table (lowestFree table)

def close : Table α → Nat → Table α
  | [], _ => []
  | _ :: table, 0 => none :: table
  | entry :: table, fd + 1 => entry :: close table fd

/-- The file at one entry at another one too; what was there is closed. -/
def dup2 (table : Table α) (fd fd' : Nat) : Table α :=
  match lookup table fd with
  | none => table
  | some a => put a table fd'

variable {a : α} {table : Table α} {fd fd' : Nat}

theorem lookup_nil : lookup ([] : Table α) fd = none := by
  cases fd <;> rfl

theorem lookup_map {β : Type*} (f : α → β) (table : Table α) (fd : Nat) :
    lookup (table.map (Option.map f)) fd = (lookup table fd).map f := by
  induction table generalizing fd with
  | nil => simp [lookup_nil]
  | cons entry table ih =>
      cases fd with
      | zero => rfl
      | succ fd => exact ih fd

theorem mem_of_lookup (h : lookup table fd = some a) : some a ∈ table := by
  induction table generalizing fd with
  | nil => simp [lookup_nil] at h
  | cons entry table ih =>
      cases fd with
      | zero =>
          cases h
          exact List.mem_cons_self
      | succ fd => exact List.mem_cons_of_mem entry (ih h)

theorem lookup_put_self (a : α) (table : Table α) (fd : Nat) :
    lookup (put a table fd) fd = some a := by
  induction fd generalizing table with
  | zero => cases table <;> rfl
  | succ fd ih =>
      cases table with
      | nil => exact ih []
      | cons entry table => exact ih table

theorem lookup_put_of_ne (h : fd' ≠ fd) : lookup (put a table fd) fd' = lookup table fd' := by
  induction fd generalizing table fd' with
  | zero =>
      cases fd' with
      | zero => exact absurd rfl h
      | succ fd' => cases table <;> simp [put, lookup]
  | succ fd ih =>
      have hne : ∀ n, fd' = n + 1 → n ≠ fd := fun n hn heq => h (by rw [hn, heq])
      cases table with
      | nil =>
          cases fd' with
          | zero => rfl
          | succ fd' => exact (ih (hne fd' rfl)).trans lookup_nil
      | cons entry table =>
          cases fd' with
          | zero => rfl
          | succ fd' => exact ih (hne fd' rfl)

theorem lookup_close_self (table : Table α) (fd : Nat) : lookup (close table fd) fd = none := by
  induction fd generalizing table with
  | zero => cases table <;> rfl
  | succ fd ih =>
      cases table with
      | nil => rfl
      | cons entry table => exact ih table

theorem lookup_close_of_ne (h : fd' ≠ fd) : lookup (close table fd) fd' = lookup table fd' := by
  induction fd generalizing table fd' with
  | zero =>
      cases fd' with
      | zero => exact absurd rfl h
      | succ fd' => cases table <;> rfl
  | succ fd ih =>
      have hne : ∀ n, fd' = n + 1 → n ≠ fd := fun n hn heq => h (by rw [hn, heq])
      cases table with
      | nil => rfl
      | cons entry table =>
          cases fd' with
          | zero => rfl
          | succ fd' => exact ih (hne fd' rfl)

theorem lookup_lowestFree (table : Table α) : lookup table (lowestFree table) = none := by
  induction table with
  | nil => rfl
  | cons entry table ih =>
      cases entry with
      | none => rfl
      | some b => exact ih

theorem lowestFree_le (h : lookup table fd = none) : lowestFree table ≤ fd := by
  induction table generalizing fd with
  | nil => exact Nat.zero_le _
  | cons entry table ih =>
      cases entry with
      | none => exact Nat.zero_le _
      | some b =>
          cases fd with
          | zero => cases h
          | succ fd => exact Nat.succ_le_succ (ih h)

/-- A file that is open is not where the new one goes. -/
theorem ne_lowestFree (h : lookup table fd = some a) : fd ≠ lowestFree table := by
  intro heq
  rw [heq, lookup_lowestFree] at h
  cases h

theorem lookup_opened (table : Table α) (a : α) :
    lookup (opened a table) (lowestFree table) = some a :=
  lookup_put_self a table _

theorem lookup_opened_of_some {b : α} (h : lookup table fd = some b) :
    lookup (opened a table) fd = some b := by
  rw [opened, lookup_put_of_ne (ne_lowestFree h), h]

end Descriptors
