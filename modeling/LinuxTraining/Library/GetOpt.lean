import Mathlib.Data.List.Basic
import Mathlib.Tactic.Common

/-!
`getopt` over a command line that may mix options and other arguments: the options that a
program finds, in order, each with its argument. A letter that is no option, and an option
whose argument is missing, come out as a question mark.
-/
namespace GetOpt

/-- An option as the program gets it: the letter, and `optarg`. -/
structure Found where
  letter : Char
  optarg : Option (List Char)
  deriving DecidableEq

def unknown : Found := ⟨'?', none⟩

/-- The letters that follow one dash, and the option that still waits for its argument.
`takes` says which letters are options, and which of them take an argument. -/
def cluster (takes : Char → Option Bool) : List Char → List Found × Option Char
  | [] => ([], none)
  | c :: cs =>
      match takes c with
      | none => (unknown :: (cluster takes cs).1, (cluster takes cs).2)
      | some false => (⟨c, none⟩ :: (cluster takes cs).1, (cluster takes cs).2)
      | some true => if cs = [] then ([], some c) else ([⟨c, some cs⟩], none)

def options (takes : Char → Option Bool) : Option Char → List (List Char) → List Found
  | none, [] => []
  | some _, [] => [unknown]
  | some c, arg :: rest => ⟨c, some arg⟩ :: options takes none rest
  | none, arg :: rest =>
      if arg = ['-', '-'] then []
      else
        match arg with
        | '-' :: c :: cs =>
            (cluster takes (c :: cs)).1 ++ options takes (cluster takes (c :: cs)).2 rest
        | _ => options takes none rest

/-- What the calls of `getopt` find, before the one that answers -1. -/
def getopt (takes : Char → Option Bool) (args : List (List Char)) : List Found :=
  options takes none args

def Known (takes : Char → Option Bool) (found : Found) : Prop :=
  takes found.letter = some found.optarg.isSome

variable {takes : Char → Option Bool}

theorem cluster_known (cs : List Char) :
    (∀ found ∈ (cluster takes cs).1, found = unknown ∨ Known takes found) ∧
      ∀ c, (cluster takes cs).2 = some c → takes c = some true := by
  induction cs with
  | nil => exact ⟨fun found h => absurd h List.not_mem_nil, fun c h => by cases h⟩
  | cons c cs ih =>
      cases hc : takes c with
      | none =>
          simp only [cluster, hc]
          exact ⟨List.forall_mem_cons.mpr ⟨.inl rfl, ih.1⟩, ih.2⟩
      | some wants =>
          cases wants with
          | false =>
              simp only [cluster, hc]
              exact ⟨List.forall_mem_cons.mpr ⟨.inr hc, ih.1⟩, ih.2⟩
          | true =>
              by_cases hcs : cs = []
              · simp only [cluster, hc, hcs, if_true]
                refine ⟨fun found h => absurd h List.not_mem_nil, fun d hd => ?_⟩
                rw [← Option.some.inj hd, hc]
              · simp only [cluster, hc, hcs, if_false]
                exact ⟨List.forall_mem_singleton.mpr (.inr hc), fun d hd => by cases hd⟩

theorem options_known (waiting : Option Char) (args : List (List Char))
    (hwaiting : ∀ c, waiting = some c → takes c = some true) :
    ∀ found ∈ options takes waiting args, found = unknown ∨ Known takes found := by
  induction args generalizing waiting with
  | nil =>
      cases waiting with
      | none => exact fun found h => absurd h List.not_mem_nil
      | some c => exact List.forall_mem_singleton.mpr (.inl rfl)
  | cons arg rest ih =>
      have hrest := ih none fun c h => by cases h
      cases waiting with
      | some c => exact List.forall_mem_cons.mpr ⟨.inr (hwaiting c rfl), hrest⟩
      | none =>
          unfold options
          split
          · exact fun found h => absurd h List.not_mem_nil
          · split
            · rename_i c cs _
              have hcluster := @cluster_known takes (c :: cs)
              exact List.forall_mem_append.mpr ⟨hcluster.1, ih _ hcluster.2⟩
            · exact hrest

/-- A program gets no letters but its own and the question mark. -/
theorem getopt_known (args : List (List Char)) :
    ∀ found ∈ getopt takes args, found = unknown ∨ Known takes found :=
  options_known none args fun c h => by cases h

end GetOpt
