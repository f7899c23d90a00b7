import LinuxTraining.Library.GetOpt
import LinuxTraining.Library.Stdio
import LinuxTraining.Speedtest.RequestPath

/-!
The command line of the speed test. `main` starts from three defaults and goes on with what
`parse_command_line` leaves of them.
-/
namespace LinuxTraining.Speedtest
open GetOpt Stdio

def protocolHttp : Int := 1

def protocolHttps : Int := 2

/-- What `parse_command_line` writes through its pointers. -/
structure Settings where
  num_threads : Int
  protocol : Int
  manual_mode : Int
  deriving DecidableEq

def Settings.default : Settings := ⟨3, protocolHttp, 1⟩

def optstring : Char → Option Bool
  | 't' | 'p' => some true
  | 'm' => some false
  | _ => none

/-- The cases of `-t`, `-p` and `-m`. Other letters leave the settings alone. -/
def Settings.apply (settings : Settings) (found : Found) : Settings :=
  match found.letter with
  | 't' => { settings with num_threads := atoi (found.optarg.getD []) }
  | 'p' =>
      if found.optarg.getD [] = "http".toList then { settings with protocol := protocolHttp }
      else if found.optarg.getD [] = "https".toList then
        { settings with protocol := protocolHttps }
      else settings
  | 'm' => { settings with manual_mode := 1 }
  | _ => settings

/-- The loop over what `getopt` finds: the answer, and the settings it leaves. The case `'h'`
prints the usage and returns at once. -/
def parseLoop (settings : Settings) : List Found → Int × Settings
  | [] => (0, settings)
  | found :: rest =>
      if found.letter = 'h' then (1, settings) else parseLoop (settings.apply found) rest

def parseCommandLine (settings : Settings) (args : List Text) : Int × Settings :=
  parseLoop settings (getopt optstring args)

def argumentsOf (letter : Char) (found : List Found) : List Text :=
  (found.filter fun f => f.letter = letter).filterMap Found.optarg

def namedProtocol (optarg : Text) : Option Int :=
  if optarg = "http".toList then some protocolHttp
  else if optarg = "https".toList then some protocolHttps
  else none

/-- What the options mean for the settings of `main`: the last `-t` counts, and the last `-p`
that names a protocol. -/
def settled (settings : Settings) (found : List Found) : Settings where
  num_threads := ((argumentsOf 't' found).getLast?.map atoi).getD settings.num_threads
  protocol := ((argumentsOf 'p' found).filterMap namedProtocol).getLast?.getD settings.protocol
  manual_mode := settings.manual_mode

variable {settings : Settings} {found : Found}

theorem argumentsOf_same (letter : Char) (optarg : Text) (rest : List Found) :
    argumentsOf letter (⟨letter, some optarg⟩ :: rest) = optarg :: argumentsOf letter rest := by
  simp [argumentsOf]

theorem argumentsOf_other (letter : Char) (found : Found) (rest : List Found)
    (h : found.letter ≠ letter) :
    argumentsOf letter (found :: rest) = argumentsOf letter rest := by
  simp [argumentsOf, h]

theorem getLast?_cons_getD {α : Type*} (a b : α) (as : List α) :
    (a :: as).getLast?.getD b = as.getLast?.getD a := by
  rw [List.getLast?_cons]
  cases as.getLast? <;> rfl

/-- The letters that `parse_command_line` gets. `'h'` is not one of them. -/
theorem known_cases (h : found = unknown ∨ Known optstring found) :
    (∃ optarg, found = ⟨'t', some optarg⟩) ∨ (∃ optarg, found = ⟨'p', some optarg⟩) ∨
      found = ⟨'m', none⟩ ∨ found = unknown := by
  cases h with
  | inl hunknown => exact .inr (.inr (.inr hunknown))
  | inr hknown =>
      obtain ⟨letter, optarg⟩ := found
      unfold Known optstring at hknown
      split at hknown
      · rename_i hletter
        cases optarg with
        | none => cases hknown
        | some optarg => exact .inl ⟨optarg, by rw [show letter = 't' from hletter]⟩
      · rename_i hletter
        cases optarg with
        | none => cases hknown
        | some optarg => exact .inr (.inl ⟨optarg, by rw [show letter = 'p' from hletter]⟩)
      · rename_i hletter
        cases optarg with
        | none => exact .inr (.inr (.inl (by rw [show letter = 'm' from hletter])))
        | some optarg => cases hknown
      · cases hknown

theorem apply_protocol (settings : Settings) (optarg : Text) :
    settings.apply ⟨'p', some optarg⟩ =
      { settings with protocol := (namedProtocol optarg).getD settings.protocol } := by
  simp only [Settings.apply, Option.getD_some, namedProtocol]
  split
  · rfl
  · split <;> rfl

theorem settled_cons (rest : List Found) (hmode : settings.manual_mode = 1)
    (h : found = unknown ∨ Known optstring found) :
    found.letter ≠ 'h' ∧ (settings.apply found).manual_mode = 1 ∧
      settled settings (found :: rest) = settled (settings.apply found) rest := by
  obtain ⟨optarg, rfl⟩ | ⟨optarg, rfl⟩ | rfl | rfl := known_cases h
  · have hother := argumentsOf_other 'p' ⟨'t', some optarg⟩ rest (by simp)
    refine ⟨by simp, hmode, ?_⟩
    simp only [settled, argumentsOf_same, hother, ← List.getLast?_map, List.map_cons,
      getLast?_cons_getD, Settings.apply, Option.getD_some]
  · have hother := argumentsOf_other 't' ⟨'p', some optarg⟩ rest (by simp)
    rw [apply_protocol]
    refine ⟨by simp, hmode, ?_⟩
    simp only [settled, argumentsOf_same, hother, List.filterMap_cons]
    cases namedProtocol optarg with
    | none => rfl
    | some protocol => simp only [getLast?_cons_getD, Option.getD_some]
  · have hthreads := argumentsOf_other 't' ⟨'m', none⟩ rest (by decide)
    have hprotocol := argumentsOf_other 'p' ⟨'m', none⟩ rest (by decide)
    refine ⟨by decide, rfl, ?_⟩
    simp only [settled, hthreads, hprotocol, Settings.apply, hmode]
  · have hthreads := argumentsOf_other 't' unknown rest (by decide)
    have hprotocol := argumentsOf_other 'p' unknown rest (by decide)
    have hsame : settings.apply unknown = settings := rfl
    refine ⟨by decide, hmode, ?_⟩
    simp only [settled, hthreads, hprotocol, hsame]

theorem parseLoop_settled (hmode : settings.manual_mode = 1) (found : List Found)
    (h : ∀ f ∈ found, f = unknown ∨ Known optstring f) :
    parseLoop settings found = (0, settled settings found) := by
  induction found generalizing settings with
  | nil => rfl
  | cons f rest ih =>
      obtain ⟨hf, hrest⟩ := List.forall_mem_cons.mp h
      obtain ⟨hletter, hkept, hsettled⟩ := settled_cons rest hmode hf
      rw [parseLoop, if_neg hletter, ih hkept hrest, hsettled]

/-- No command line is refused, the usage is never printed, and the manual mode stays what it
is by default. The last `-t` decides on the threads, and the last `-p` that names a protocol
on the protocol. -/
theorem parse_command_line_settled (args : List Text) :
    parseCommandLine .default args =
      (0, settled .default (getopt optstring args)) :=
  parseLoop_settled rfl (getopt optstring args) (getopt_known args)

example : (parseCommandLine .default
    ["-h".toList, "-mt".toList, "12".toList, "x".toList, "-phttps".toList]).2 = ⟨12, 2, 1⟩ := by
  decide +kernel

end LinuxTraining.Speedtest
