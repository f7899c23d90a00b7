import LinuxTraining.FileSystem.AskName
import LinuxTraining.FileSystem.Folder
import Mathlib.Data.List.Basic
import Mathlib.Tactic.Common

/-!
`file_manipulation`: a name is asked for until one is accepted, and what is typed then goes
to the file of that name. A name that can be opened is accepted only after a question.
-/
namespace LinuxTraining.FileManipulation
open FileSystem InputStream

def invalidChars : List Char := "\\/:*?\"<>| ".toList

/-- The source's name says the opposite of what the function returns. -/
def isInvalidFileName (fileName : List Char) : Bool :=
  invalidChars.all fun c => c ∉ fileName

def isExistOutFile (folder : Folder) (fileName : List Char) (s : Stream) : Bool × Stream :=
  if folder.fopenRead fileName then
    let (ch, s) := getchar s
    (ch = some 'Y' || ch = some 'y', s)
  else (true, s)

def isOverRange (folder : Folder) (fileName : List Char) (s : Stream) : Bool × Stream :=
  if fileName.length > maxFileName then (false, s)
  else if !isInvalidFileName fileName then (false, s)
  else isExistOutFile folder fileName s

def createOutputFile (folder : Folder) (turns : Nat) (outputFileName : List Char) (s : Stream) :
    Option (List Char × Stream) :=
  askName (isOverRange folder) turns outputFileName s

def putTyped (folder : Folder) (file : FileName) (s : Stream) : Folder :=
  match _h : getchar s with
  | (none, _) => folder
  | (some c, t) => putTyped (folder.fputc file c) file t
termination_by s.remaining.length
decreasing_by exact remaining_lt ‹_›

/-- `none`: the file cannot be opened. -/
def enterAndReadFromKeyboard (folder : Folder) (outputFile : List Char) (s : Stream) :
    Option Folder :=
  match folder.fopenWrite outputFile with
  | none => none
  | some (file, folder) => some (putTyped folder file s)

variable {folder final : Folder} {f name : List Char} {s t : Stream} {turns : Nat}

theorem isExistOutFile_true (h : isExistOutFile folder f t = (true, s))
    (hopen : folder.fopenRead f = true) : s.last = some 'Y' ∨ s.last = some 'y' := by
  simp only [isExistOutFile, hopen, if_true] at h
  cases hget : getchar t with
  | mk ch u =>
      simp only [hget, Prod.mk.injEq] at h
      obtain ⟨hyes, rfl⟩ := h
      cases ch with
      | none => simp at hyes
      | some c =>
          have hc : c = 'Y' ∨ c = 'y' := by simpa using hyes
          rw [(getchar_some hget).2]
          simpa using hc

theorem isOverRange_true (h : isOverRange folder f t = (true, s)) :
    isInvalidFileName f = true ∧ isExistOutFile folder f t = (true, s) := by
  simp only [isOverRange] at h
  split at h
  · cases h
  · split at h
    · cases h
    · rename_i hvalid
      exact ⟨by simpa using hvalid, h⟩

theorem accepted_answer (h : createOutputFile folder turns name t = some (f, s))
    (hopen : folder.fopenRead f = true) : s.last = some 'Y' ∨ s.last = some 'y' := by
  obtain ⟨-, -, u, hlast⟩ := askName_some h
  exact isExistOutFile_true (isOverRange_true hlast).2 hopen

theorem accepted_valid (h : createOutputFile folder turns name t = some (f, s)) :
    ∀ c ∈ invalidChars, c ∉ f := by
  obtain ⟨-, -, u, hlast⟩ := askName_some h
  simpa [isInvalidFileName] using (isOverRange_true hlast).1

/-- The whole rest of the input goes to the end of the file. -/
theorem putTyped_content {file : FileName} {content : List Char}
    (h : folder.content file.val = some content) :
    (putTyped folder file s).content file.val = some (content ++ s.remaining) := by
  fun_induction putTyped folder file s generalizing content with
  | case1 folder s t hget =>
      rw [(getchar_none hget).1, List.append_nil, h]
  | case2 folder s c t hget ih =>
      rw [(getchar_some hget).1, ih (Folder.content_fputc c h),
        List.append_assoc, List.singleton_append]

theorem putTyped_of_ne {file other : FileName} (hother : other ≠ file) :
    putTyped folder file s other = folder other := by
  fun_induction putTyped folder file s with
  | case1 folder s t hget => rfl
  | case2 folder s c t hget ih =>
      rw [ih, Folder.fputc_of_ne c hother]

/-- What the file holds afterwards is what was left of the input. -/
theorem enterAndRead_some (h : enterAndReadFromKeyboard folder f s = some final) :
    final.content f = some s.remaining ∧
      ∀ other : FileName, other.val ≠ f → final other = folder other := by
  simp only [enterAndReadFromKeyboard] at h
  split at h
  · cases h
  · rename_i file made hopen
    obtain ⟨rfl, hempty, hframe⟩ := Folder.fopenWrite_some hopen
    obtain rfl := Option.some.inj h
    refine ⟨putTyped_content hempty, ?_⟩
    intro other hother
    have hne : other ≠ file := fun hsame => hother (congrArg Subtype.val hsame)
    rw [putTyped_of_ne hne, hframe other hne]

def restOfLine (s : Stream) : Nat :=
  if s.last = none ∨ s.last = some '\n' then 0
  else (s.remaining.takeWhile fun c => c ≠ '\n').length + 1

def unreadLine (s : Stream) : List Char := s.remaining.take (restOfLine s)

def typed (s : Stream) : List Char := s.remaining.drop (restOfLine s)

def heldText (folder : Folder) (f : List Char) : List Char :=
  if folder.fopenRead f then (folder.content f).getD [] else []

def keptText (folder : Folder) (f : List Char) (s : Stream) : List Char :=
  if s.last = some 'Y' ∨ s.last = some 'y' then heldText folder f else []

/-- What the prompts promise of an accepted name. -/
def Promised (folder : Folder) (f : List Char) (s : Stream) (final : Folder) : Prop :=
  final.content f = some (keptText folder f s ++ typed s) ∧
    ∀ other : FileName, other.val ≠ f → final other = folder other

theorem unreadLine_append (s : Stream) : unreadLine s ++ typed s = s.remaining :=
  List.take_append_drop _ _

theorem keptText_eq (h : createOutputFile folder turns name t = some (f, s)) :
    keptText folder f s = heldText folder f := by
  by_cases hopen : folder.fopenRead f = true
  · rw [keptText, if_pos (accepted_answer h hopen)]
  · simp [keptText, heldText, hopen]

/-- The file is opened anew, and the answer's line is not read to its end: the old text is
kept only where that end happens to be the same. -/
theorem promised_iff {script : List (List Char)}
    (hname : createOutputFile folder turns name (opened script) = some (f, s))
    (hwrite : enterAndReadFromKeyboard folder f s = some final) :
    Promised folder f s final ↔ heldText folder f = unreadLine s := by
  obtain ⟨hcontent, hframe⟩ := enterAndRead_some hwrite
  rw [Promised, hcontent, keptText_eq hname, ← unreadLine_append, Option.some.injEq,
    List.append_cancel_right_eq]
  constructor
  · intro h
    exact h.1.symm
  · intro h
    exact ⟨h.symm, hframe⟩

/-- A new file holds what was typed. -/
theorem promised_iff_new : ∃ final,
    createOutputFile (fun _ => none) 1 [] (opened ["a\n".toList, "hello\n".toList]) =
      some (['a'], ⟨[], ["hello\n".toList], some '\n'⟩) ∧
    enterAndReadFromKeyboard (fun _ => none) ['a'] ⟨[], ["hello\n".toList], some '\n'⟩ =
      some final ∧
    Promised (fun _ => none) ['a'] ⟨[], ["hello\n".toList], some '\n'⟩ final := by
  have hname : createOutputFile (fun _ => none) 1 []
      (opened ["a\n".toList, "hello\n".toList]) =
      some (['a'], ⟨[], ["hello\n".toList], some '\n'⟩) := by decide +kernel
  exact ⟨_, hname, rfl, (promised_iff hname rfl).mpr (by decide +kernel)⟩

def oldFolder : Folder := fun name =>
  if name.val = ['a'] then some (.file "old\n".toList true true) else none

/-- The old text is lost, and the end of the answer's line takes its place. -/
theorem promise_broken : ∃ final,
    createOutputFile oldFolder 1 [] (opened ["a\n".toList, "Y\n".toList, "new\n".toList]) =
      some (['a'], ⟨['\n'], ["new\n".toList], some 'Y'⟩) ∧
    enterAndReadFromKeyboard oldFolder ['a'] ⟨['\n'], ["new\n".toList], some 'Y'⟩ =
      some final ∧
    final.content ['a'] = some "\nnew\n".toList ∧
    ¬ Promised oldFolder ['a'] ⟨['\n'], ["new\n".toList], some 'Y'⟩ final := by
  have hwrite : ∃ final, enterAndReadFromKeyboard oldFolder ['a']
      ⟨['\n'], ["new\n".toList], some 'Y'⟩ = some final := ⟨_, rfl⟩
  obtain ⟨final, hwrite⟩ := hwrite
  have hcontent := (enterAndRead_some hwrite).1
  refine ⟨final, by decide +kernel, hwrite, hcontent, ?_⟩
  intro hpromised
  have hsame := hpromised.1
  rw [hcontent] at hsame
  revert hsame
  decide +kernel

end LinuxTraining.FileManipulation
