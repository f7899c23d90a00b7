import LinuxTraining.FileSystem.AskName
import LinuxTraining.FileSystem.Folder
import Mathlib.Data.List.Basic
import Mathlib.Data.List.TakeWhile
import Mathlib.Tactic.Common

/-!
`prints_file_names_and_types_file`: the listing of a file that the user names, kept for a
while in a file of the working directory. The listing is written and removed by commands
that `system` gives to the shell, of which the names with nothing to expand are described.
What is below the working directory belongs to the user: the shell may remove it.
-/
namespace LinuxTraining.PrintsFileNames
open FileSystem InputStream

def checkDigit (fileName : List Char) : Bool :=
  fileName.any fun c => c ≠ '\\' && c ≠ '/' && c ≠ '.'

/-- A path that leaves the working directory is opened as `elsewhere` says. -/
def isExistInputFile (elsewhere : List Char → Bool) (folder : Folder) (fileName : List Char) :
    Bool :=
  (if IsFileName fileName then folder.fopenRead fileName else elsewhere fileName) &&
    checkDigit fileName

def checkFileExist (elsewhere : List Char → Bool) (folder : Folder) (fileName : List Char) :
    Bool :=
  isExistInputFile elsewhere folder fileName

def inputFile (elsewhere : List Char → Bool) (folder : Folder) (turns : Nat)
    (fileName : List Char) (s : Stream) : Option (List Char × Stream) :=
  askName (fun fileName s => (checkFileExist elsewhere folder fileName, s)) turns fileName s

def tempFile : List Char := "temp_file.txt".toList

/-- What `snprintf` leaves room for. -/
def command (fileName : List Char) : List Char :=
  ("ls -l \"".toList ++ fileName ++ "\" > ".toList ++ tempFile).take (maxFileName - 1)

def rmCommand : List Char := "rm -rf *.txt".toList

def getSubFile (system : List Char → Folder → Folder) (fileName : List Char)
    (folder : Folder) : Folder :=
  system rmCommand (system (command fileName) folder)

abbrev IsTxt (name : FileName) : Prop :=
  ".txt".toList <:+ name.val ∧ name.val.head? ≠ some '.'

/-- One of the names looks like an option that `rm` does not have. -/
def Refused (folder : Folder) : Prop :=
  ∃ name, IsTxt name ∧ name.val.head? = some '-' ∧ folder name ≠ none

def rmTxt (folder : Folder) : Folder := fun name => if IsTxt name then none else folder name

/-- Inside double quotes the shell finds nothing to expand. -/
def Literal (fileName : List Char) : Prop :=
  ∀ c ∈ ['\x22', '$', '\x60', '\\'], c ∉ fileName

def IsWord (target : List Char) : Prop :=
  target ≠ [] ∧ ∀ c ∈ target, c.isAlphanum = true ∨ c = '_' ∨ c = '.'

variable {system : List Char → Folder → Folder} {output : List Char → Folder → List Char}
  {folder mid : Folder} {fileName : List Char}

/-- What the shell and `rm` do with a folder. `output` is what a command prints. -/
structure Shell (system : List Char → Folder → Folder)
    (output : List Char → Folder → List Char) : Prop where
  redirects : ∀ folder fileName target, Literal fileName → '\n' ∉ fileName →
    '\x00' ∉ fileName → IsWord target →
    system ("ls -l \"".toList ++ fileName ++ "\" > ".toList ++ target) folder =
      folder.redirect target
        (output ("ls -l \"".toList ++ fileName ++ "\" > ".toList ++ target) folder)
  prints : ∀ folder fileName tail, Literal fileName → '\n' ∉ fileName → '\x00' ∉ fileName →
    tail ∈ ["\" ".toList, "\"".toList] →
    system ("ls -l \"".toList ++ fileName ++ tail) folder = folder
  syntax_error : ∀ folder fileName tail, Literal fileName → '\n' ∉ fileName →
    '\x00' ∉ fileName → tail ∈ ["\" > ".toList, "\" >".toList, []] →
    system ("ls -l \"".toList ++ fileName ++ tail) folder = folder
  refuses : ∀ folder, Refused folder → system rmCommand folder = folder
  removes : ∀ folder, ¬ Refused folder → system rmCommand folder = rmTxt folder

def NoTxt (folder : Folder) : Prop := ∀ name, IsTxt name → folder name = none

/-- Between the commands nothing has changed that the second one does not undo. -/
def Undone (folder mid : Folder) : Prop :=
  Refused mid ∧ mid = folder ∨
    ¬ Refused mid ∧ NoTxt folder ∧ ∀ name, ¬ IsTxt name → mid name = folder name

theorem getSubFile_eq_iff (hshell : Shell system output) :
    getSubFile system fileName folder = folder ↔
      Undone folder (system (command fileName) folder) := by
  rw [getSubFile, Undone]
  generalize system (command fileName) folder = mid
  by_cases hrefused : Refused mid
  · rw [hshell.refuses mid hrefused]
    simp [hrefused]
  · rw [hshell.removes mid hrefused]
    simp only [hrefused, false_and, not_false_eq_true, true_and, false_or]
    constructor
    · intro hsame
      refine ⟨?_, ?_⟩
      · intro name htxt
        rw [← hsame, rmTxt, if_pos htxt]
      · intro name htxt
        rw [← hsame, rmTxt, if_neg htxt]
    · intro hkept
      funext name
      by_cases htxt : IsTxt name
      · rw [rmTxt, if_pos htxt, hkept.1 name htxt]
      · rw [rmTxt, if_neg htxt, hkept.2 name htxt]

theorem command_take (fileName : List Char) : command fileName =
    "ls -l \"".toList ++ fileName.take 92 ++
      ("\" > ".toList ++ tempFile).take (92 - fileName.length) := by
  simp only [command, maxFileName, List.append_assoc]
  rw [List.take_append, List.take_append]
  rfl

def target (fileName : List Char) : List Char := tempFile.take (88 - fileName.length)

theorem command_redirects (hlen : fileName.length < 88) :
    command fileName = "ls -l \"".toList ++ fileName ++ "\" > ".toList ++ target fileName := by
  have htail : ("\" > ".toList ++ tempFile).take (92 - fileName.length) =
      "\" > ".toList ++ target fileName := by
    rw [List.take_append, List.take_of_length_le (by simp; omega), target,
      List.append_cancel_left_eq]
    congr 1
    simp
    omega
  rw [command_take, htail, List.take_of_length_le (by omega)]
  simp only [List.append_assoc]

theorem command_rest (hlen : 88 ≤ fileName.length) :
    ("\" > ".toList ++ tempFile).take (92 - fileName.length) ∈
      ["\" > ".toList, "\" >".toList, "\" ".toList, "\"".toList, []] := by
  have hshort : ∀ room, room < 5 → ("\" > ".toList ++ tempFile).take room ∈
      ["\" > ".toList, "\" >".toList, "\" ".toList, "\"".toList, []] := by
    decide
  exact hshort _ (by omega)

theorem target_word (hlen : fileName.length < 88) :
    IsWord (target fileName) ∧ IsFileName (target fileName) := by
  have hword : (tempFile.all fun c => c.isAlphanum || c = '_' || c = '.') = true := by
    decide
  have hall : ∀ c ∈ tempFile, c.isAlphanum = true ∨ c = '_' ∨ c = '.' := by
    simpa [or_assoc] using hword
  have hne : target fileName ≠ [] := by
    rw [target, ne_eq, List.take_eq_nil_iff, not_or]
    exact ⟨by omega, by decide⟩
  have hmem : ∀ c ∈ target fileName, c ∈ tempFile := fun c hc => List.mem_of_mem_take hc
  refine ⟨⟨hne, fun c hc => hall c (hmem c hc)⟩, hne, ?_, ?_⟩
  · intro hslash
    exact absurd (hmem _ hslash) (by decide)
  · intro hnul
    exact absurd (hmem _ hnul) (by decide)

def listed (output : List Char → Folder → List Char) (fileName : List Char)
    (folder : Folder) : Folder :=
  if fileName.length < 88 then
    folder.redirect (target fileName) (output (command fileName) folder)
  else folder

theorem system_command (hshell : Shell system output) (hliteral : Literal fileName)
    (hnewline : '\n' ∉ fileName) (hnul : '\x00' ∉ fileName) :
    system (command fileName) folder = listed output fileName folder := by
  by_cases hlen : fileName.length < 88
  · rw [listed, if_pos hlen, command_redirects hlen]
    exact hshell.redirects folder fileName _ hliteral hnewline hnul (target_word hlen).1
  · rw [listed, if_neg hlen, command_take]
    have hliteral' : Literal (fileName.take 92) :=
      fun c hc hmem => hliteral c hc (List.mem_of_mem_take hmem)
    have hnewline' : '\n' ∉ fileName.take 92 := fun hmem => hnewline (List.mem_of_mem_take hmem)
    have hnul' : '\x00' ∉ fileName.take 92 := fun hmem => hnul (List.mem_of_mem_take hmem)
    have hrest := command_rest (Nat.not_lt.mp hlen)
    revert hrest
    generalize ("\" > ".toList ++ tempFile).take (92 - fileName.length) = tail
    intro hrest
    by_cases hprints : tail ∈ ["\" ".toList, "\"".toList]
    · exact hshell.prints folder _ tail hliteral' hnewline' hnul' hprints
    · refine hshell.syntax_error folder _ tail hliteral' hnewline' hnul' ?_
      simp only [List.mem_cons, List.not_mem_nil, or_false, not_or] at hrest hprints ⊢
      grind

theorem refused_congr (h : ∀ name, IsTxt name → name.val.head? = some '-' →
    mid name = folder name) : Refused mid ↔ Refused folder := by
  constructor
  · intro hrefused
    obtain ⟨name, htxt, hdash, hname⟩ := hrefused
    exact ⟨name, htxt, hdash, by rwa [← h name htxt hdash]⟩
  · intro hrefused
    obtain ⟨name, htxt, hdash, hname⟩ := hrefused
    exact ⟨name, htxt, hdash, by rwa [h name htxt hdash]⟩

/-- A first command that leaves the names of `*.txt` alone. -/
theorem undone_iff_of_txt (h : ∀ name, IsTxt name → mid name = folder name) :
    Undone folder mid ↔ mid = folder ∧ (NoTxt folder ∨ Refused folder) := by
  rw [Undone, refused_congr fun name htxt _ => h name htxt]
  by_cases hrefused : Refused folder
  · simp [hrefused]
  · simp only [hrefused, false_and, not_false_eq_true, true_and, false_or, or_false]
    constructor
    · intro hkept
      refine ⟨?_, hkept.1⟩
      funext name
      by_cases htxt : IsTxt name
      · exact h name htxt
      · exact hkept.2 name htxt
    · intro hsame
      exact ⟨hsame.2, fun name _ => by rw [hsame.1]⟩

/-- A first command that makes a file of `*.txt` and nothing else. -/
theorem undone_iff_of_new {new : FileName} (htxt : IsTxt new) (hdash : new.val.head? ≠ some '-')
    (hfresh : folder new = none) (hmade : mid new ≠ none)
    (hframe : ∀ name, name ≠ new → mid name = folder name) :
    Undone folder mid ↔ NoTxt folder := by
  have hdiffers : mid ≠ folder := by
    intro hsame
    exact hmade (by rw [hsame, hfresh])
  have hrefused : Refused mid ↔ Refused folder := by
    refine refused_congr fun name _ hname => hframe name ?_
    intro hsame
    exact hdash (hsame ▸ hname)
  rw [Undone, hrefused]
  simp only [hdiffers, and_false, false_or]
  constructor
  · intro hkept
    exact hkept.2.1
  · intro hnone
    refine ⟨?_, hnone, ?_⟩
    · intro hname
      obtain ⟨name, hname, -, hthere⟩ := hname
      exact hthere (hnone name hname)
    · intro name hname
      exact hframe name fun hsame => hname (hsame ▸ htxt)

theorem listed_of_ne {name : FileName} (hother : name.val ≠ target fileName) :
    listed output fileName folder name = folder name := by
  rw [listed]
  split
  · exact Folder.redirect_of_ne _ hother
  · rfl

theorem refused_listed : Refused (listed output fileName folder) ↔ Refused folder := by
  refine refused_congr fun name _ hdash => listed_of_ne ?_
  intro hsame
  rw [hsame, target, List.head?_take] at hdash
  split at hdash
  · cases hdash
  · exact absurd hdash (by decide)

/-- Whatever is called `*.txt` is removed, the listing or not. -/
theorem txt_removed (hshell : Shell system output) (hliteral : Literal fileName)
    (hnewline : '\n' ∉ fileName) (hnul : '\x00' ∉ fileName) (hrefused : ¬ Refused folder)
    {name : FileName} (htxt : IsTxt name) : getSubFile system fileName folder name = none := by
  rw [getSubFile, system_command hshell hliteral hnewline hnul,
    hshell.removes _ fun h => hrefused (refused_listed.mp h), rmTxt, if_pos htxt]

/-- When the folder is the same afterwards, for a name with nothing to expand. A name of
more than 75 characters cuts the name of the listing, so that it is not in `*.txt`. -/
def Harmless (output : List Char → Folder → List Char) (fileName : List Char)
    (folder : Folder) : Prop :=
  if fileName.length ≤ 75 then NoTxt folder
  else
    (fileName.length < 88 →
      folder.redirect (target fileName) (output (command fileName) folder) = folder) ∧
    (NoTxt folder ∨ Refused folder)

theorem target_not_txt (hlen : 75 < fileName.length) : ¬ ".txt".toList <:+ target fileName := by
  have hcut : ∀ room, room < 13 → ¬ ".txt".toList <:+ tempFile.take room := by
    decide
  exact hcut _ (by omega)

theorem target_whole (hlen : fileName.length ≤ 75) : target fileName = tempFile := by
  have htemp : tempFile.length = 13 := rfl
  rw [target]
  exact List.take_of_length_le (by rw [htemp]; omega)

theorem tempFile_name : IsFileName tempFile := by
  decide

theorem tempFile_txt : IsTxt ⟨tempFile, tempFile_name⟩ := by
  decide

theorem undone_listed_iff (hfresh : folder.lookup tempFile = none) :
    Undone folder (listed output fileName folder) ↔ Harmless output fileName folder := by
  by_cases hwhole : fileName.length ≤ 75
  · have hcontent :=
      Folder.content_redirect (output (command fileName) folder) tempFile_name hfresh
    rw [Folder.lookup, dif_pos tempFile_name] at hfresh
    rw [Harmless, if_pos hwhole, listed, if_pos (by omega), target_whole hwhole]
    refine undone_iff_of_new tempFile_txt (by decide) hfresh ?_ ?_
    · intro hnone
      rw [Folder.content, Folder.lookup, dif_pos tempFile_name, hnone] at hcontent
      cases hcontent
    · intro name hother
      exact Folder.redirect_of_ne _ fun hsame => hother (Subtype.ext hsame)
  · rw [Harmless, if_neg hwhole]
    have hleft : ∀ name, IsTxt name → listed output fileName folder name = folder name := by
      intro name htxt
      refine listed_of_ne fun hsame => ?_
      exact target_not_txt (Nat.not_le.mp hwhole) (hsame ▸ htxt.1)
    rw [undone_iff_of_txt hleft, listed]
    by_cases hlen : fileName.length < 88
    · simp [hlen]
    · simp [hlen]

/-- The commands leave the folder as it was only where nothing in it is called `*.txt`, up
to names that are cut or expanded. -/
theorem folder_unchanged_iff {elsewhere : List Char → Bool} {turns : Nat} {name : List Char}
    {script : List (List Char)} {s : Stream} (hshell : Shell system output)
    (hname : inputFile elsewhere folder turns name (opened script) = some (fileName, s))
    (hfresh : folder.lookup tempFile = none) :
    (getSubFile system fileName folder = folder ↔
      Undone folder (system (command fileName) folder)) ∧
    (Literal fileName →
      (getSubFile system fileName folder = folder ↔ Harmless output fileName folder)) := by
  refine ⟨getSubFile_eq_iff hshell, fun hliteral => ?_⟩
  obtain ⟨⟨hnul, hnewline⟩, -, -⟩ := askName_some hname
  rw [getSubFile_eq_iff hshell, system_command hshell hliteral hnewline hnul,
    undone_listed_iff hfresh]

open Classical in
noncomputable def plainShell (output : List Char → Folder → List Char) (command : List Char)
    (folder : Folder) : Folder :=
  if command = rmCommand then (if Refused folder then folder else rmTxt folder)
  else
    let rest := (command.drop 7).dropWhile fun c => c ≠ '\x22'
    if rest.take 4 = "\" > ".toList ∧ rest.drop 4 ≠ [] then
      folder.redirect (rest.drop 4) (output command folder)
    else folder

theorem plainShell_ls (hliteral : Literal fileName) (tail : List Char)
    (htail : (tail.dropWhile fun c => c ≠ '\x22') = tail) :
    plainShell output ("ls -l \"".toList ++ fileName ++ tail) folder =
      if tail.take 4 = "\" > ".toList ∧ tail.drop 4 ≠ [] then
        folder.redirect (tail.drop 4) (output ("ls -l \"".toList ++ fileName ++ tail) folder)
      else folder := by
  have hquote : '\x22' ∉ fileName := hliteral '\x22' (by decide)
  have hinside : ∀ c ∈ fileName, (decide (c ≠ '\x22')) = true := by
    intro c hc
    simpa using fun hsame : c = '\x22' => hquote (hsame ▸ hc)
  have hfront : "ls -l \"".toList.length = 7 := rfl
  have hdrop : ("ls -l \"".toList ++ fileName ++ tail).drop 7 = fileName ++ tail := by
    rw [List.append_assoc]
    exact List.drop_left' hfront
  have hls : "ls -l \"".toList ++ fileName ++ tail ≠ rmCommand := by
    intro hsame
    have hfirst : some 'l' = rmCommand.head? := by
      rw [← hsame, List.append_assoc]
      rfl
    exact absurd hfirst (by decide)
  simp only [plainShell, if_neg hls, hdrop]
  rw [List.dropWhile_append_of_pos hinside, htail]

theorem plainShell_rest (hliteral : Literal fileName) {tail : List Char}
    (htail : tail ∈ ["\" > ".toList, "\" >".toList, "\" ".toList, "\"".toList, []]) :
    plainShell output ("ls -l \"".toList ++ fileName ++ tail) folder = folder := by
  have hquoted : ∀ tail ∈ ["\" > ".toList, "\" >".toList, "\" ".toList, "\"".toList, []],
      (tail.dropWhile fun c => c ≠ '\x22') = tail ∧ tail.drop 4 = [] := by
    decide
  obtain ⟨hwhole, hnone⟩ := hquoted tail htail
  rw [plainShell_ls hliteral tail hwhole, if_neg fun h => h.2 hnone]

theorem plainShell_shell : Shell (plainShell output) output where
  redirects := by
    intro folder fileName target hliteral _ _ htarget
    rw [List.append_assoc, plainShell_ls hliteral _ (by simp), if_pos ⟨by simp, htarget.1⟩]
    rfl
  prints := by
    intro folder fileName tail hliteral _ _ htail
    exact plainShell_rest hliteral (by grind)
  syntax_error := by
    intro folder fileName tail hliteral _ _ htail
    exact plainShell_rest hliteral (by grind)
  refuses := by
    intro folder hrefused
    rw [plainShell, if_pos rfl, if_pos hrefused]
  removes := by
    intro folder hrefused
    rw [plainShell, if_pos rfl, if_neg hrefused]

def docs : List Char := "docs".toList

def notes : FileName := ⟨"notes.txt".toList, by decide⟩

def docsFolder : Folder := fun name =>
  if name.val = docs then some (.directory true) else none

def notesFolder : Folder := Function.update docsFolder notes (some (.file ['1'] true true))

theorem docs_literal : Literal docs := by
  simp [Literal, docs]

def noFiles : List Char → Folder → List Char := fun _ _ => "total 0\n".toList

/-- A folder without text files is as it was. -/
theorem folder_unchanged_iff_docs :
    getSubFile (plainShell noFiles) docs docsFolder = docsFolder := by
  have hname : inputFile (fun _ => false) docsFolder 1 [] (opened ["docs\n".toList]) =
      some (docs, ⟨[], [], some '\n'⟩) := by
    decide +kernel
  refine ((folder_unchanged_iff (@plainShell_shell noFiles) hname
    (by decide +kernel)).2 docs_literal).mpr ?_
  rw [Harmless, if_pos (by decide)]
  intro name htxt
  rw [docsFolder, if_neg]
  intro hsame
  rw [IsTxt, hsame] at htxt
  exact absurd htxt (by decide)

theorem notes_not_refused : ¬ Refused notesFolder := by
  intro hrefused
  obtain ⟨name, -, hdash, hname⟩ := hrefused
  by_cases hnotes : name = notes
  · rw [hnotes] at hdash
    exact absurd hdash (by decide)
  · rw [notesFolder, Function.update_of_ne hnotes, docsFolder] at hname
    split at hname
    · rename_i hdocs
      rw [hdocs] at hdash
      exact absurd hdash (by decide)
    · exact hname rfl

/-- The user's text file is gone. -/
theorem notes_removed :
    inputFile (fun _ => false) notesFolder 1 [] (opened ["docs\n".toList]) =
      some (docs, ⟨[], [], some '\n'⟩) ∧
    notesFolder.lookup tempFile = none ∧ notesFolder notes = some (.file ['1'] true true) ∧
    getSubFile (plainShell noFiles) docs notesFolder notes = none :=
  ⟨by decide +kernel, by decide +kernel, by decide +kernel,
    txt_removed plainShell_shell docs_literal (by decide) (by decide) notes_not_refused
      (by decide)⟩

end LinuxTraining.PrintsFileNames
