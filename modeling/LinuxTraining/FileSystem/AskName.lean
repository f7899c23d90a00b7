import LinuxTraining.Library.InputStream
import Mathlib.Data.List.Basic
import Mathlib.Data.List.TakeWhile
import Mathlib.Tactic.Common

/-!
How a file name is asked for: the line that is typed next, without its end, until a test
accepts it. The text of `file_name` and the standard input are passed along; an array
that has not been written yet holds any text.
-/
namespace LinuxTraining.FileSystem
open InputStream

def maxFileName : Nat := 100

/-- At the end of the input `fgets` leaves the array as it is. -/
def getFileName (fileName : List Char) (s : Stream) : List Char × Stream :=
  let (line, s) := fgets (maxFileName - 1) (fpurge s)
  let array := if line = [] then fileName else line
  (array.takeWhile fun c => c ≠ '\x00' && c ≠ '\n', s)

/-- The loop around `get_file_name`. `none`: it has not come to its end within so many
turns. -/
def askName (check : List Char → Stream → Bool × Stream) : (turns : Nat) → List Char →
    Stream → Option (List Char × Stream)
  | 0, _, _ => none
  | turns + 1, fileName, s =>
      let (fileName, s) := getFileName fileName s
      let (isFileExist, s) := check fileName s
      if !isFileExist || fileName.length > maxFileName then askName check turns fileName s
      else some (fileName, s)

variable {check : List Char → Stream → Bool × Stream} {turns : Nat}
  {f name : List Char} {s t : Stream}

/-- The last turn of the loop accepts the name. -/
theorem askName_some (h : askName check turns name t = some (f, s)) :
    ('\x00' ∉ f ∧ '\n' ∉ f) ∧ f.length ≤ maxFileName ∧ ∃ u, check f u = (true, s) := by
  induction turns generalizing name t with
  | zero => cases h
  | succ turns ih =>
      simp only [askName] at h
      split at h
      · exact ih h
      · rename_i hend
        obtain ⟨rfl, rfl⟩ := Prod.mk.inj (Option.some.inj h)
        simp only [Bool.or_eq_true, Bool.not_eq_true', decide_eq_true_eq, not_or,
          Bool.not_eq_false, Nat.not_lt] at hend
        refine ⟨⟨?_, ?_⟩, hend.2, _, Prod.ext hend.1 rfl⟩
        · intro hnul
          simpa using List.mem_takeWhile_imp hnul
        · intro hnewline
          simpa using List.mem_takeWhile_imp hnewline

/-- More turns do not change the name that is accepted. -/
theorem askName_mono (h : askName check turns name t = some (f, s)) (more : Nat) :
    askName check (turns + more) name t = some (f, s) := by
  induction turns generalizing name t with
  | zero => cases h
  | succ turns ih =>
      rw [Nat.add_right_comm]
      simp only [askName] at h ⊢
      split at h
      · rename_i hagain
        rw [if_pos hagain]
        exact ih h
      · rename_i hend
        rw [if_neg hend]
        exact h

end LinuxTraining.FileSystem
