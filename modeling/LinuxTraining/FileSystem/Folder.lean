import Mathlib.Data.List.Basic
import Mathlib.Logic.Function.Basic
import Mathlib.Tactic.Common

/-!
The working directory as `fopen` sees it. A name leads to an entry of the folder only
when it is a file name: it is not empty and goes through no other folder.
-/
namespace LinuxTraining.FileSystem

abbrev IsFileName (path : List Char) : Prop :=
  path ≠ [] ∧ '/' ∉ path ∧ '\x00' ∉ path

abbrev FileName := { path : List Char // IsFileName path }

inductive Entry where
  | file (content : List Char) (readable writable : Bool)
  | directory (readable : Bool)
  deriving DecidableEq

abbrev Folder := FileName → Option Entry

def Folder.lookup (folder : Folder) (path : List Char) : Option Entry :=
  if h : IsFileName path then folder ⟨path, h⟩ else none

def Folder.content (folder : Folder) (path : List Char) : Option (List Char) :=
  match folder.lookup path with
  | some (.file content _ _) => some content
  | some (.directory _) | none => none

/-- `fopen` for reading gives a file; a directory may be opened, too. -/
def Folder.fopenRead (folder : Folder) (path : List Char) : Bool :=
  match folder.lookup path with
  | some (.file _ readable _) => readable
  | some (.directory readable) => readable
  | none => false

/-- `fopen` for writing. The file is made if it is not there, and what it held is lost. -/
def Folder.fopenWrite (folder : Folder) (path : List Char) : Option (FileName × Folder) :=
  if h : IsFileName path then
    match folder ⟨path, h⟩ with
    | none => some (⟨path, h⟩, Function.update folder ⟨path, h⟩ (some (.file [] true true)))
    | some (.file _ readable true) =>
        some (⟨path, h⟩, Function.update folder ⟨path, h⟩ (some (.file [] readable true)))
    | some (.file _ _ false) | some (.directory _) => none
  else none

def Folder.fputc (folder : Folder) (file : FileName) (c : Char) : Folder :=
  match folder file with
  | some (.file content readable writable) =>
      Function.update folder file (some (.file (content ++ [c]) readable writable))
  | some (.directory _) | none => folder

def Folder.fputs (folder : Folder) (file : FileName) (text : List Char) : Folder :=
  text.foldl (fun folder c => folder.fputc file c) folder

/-- The output of a command that a shell sends to a file. If the file cannot be opened,
the command is not run. -/
def Folder.redirect (folder : Folder) (target text : List Char) : Folder :=
  match folder.fopenWrite target with
  | none => folder
  | some (file, made) => made.fputs file text

variable {folder made : Folder} {path : List Char} {file : FileName}

theorem Folder.lookup_val (folder : Folder) (file : FileName) :
    folder.lookup file.val = folder file := by
  rw [Folder.lookup, dif_pos file.property]

theorem Folder.content_update (readable writable : Bool) (content : List Char) :
    Folder.content (Function.update folder file (some (.file content readable writable)))
      file.val = some content := by
  rw [Folder.content, Folder.lookup_val, Function.update_self]

theorem Folder.fopenWrite_some (h : folder.fopenWrite path = some (file, made)) :
    file.val = path ∧ made.content file.val = some [] ∧
      ∀ other, other ≠ file → made other = folder other := by
  simp only [Folder.fopenWrite] at h
  split at h
  · split at h
    · obtain ⟨rfl, rfl⟩ := Prod.mk.inj (Option.some.inj h)
      exact ⟨rfl, Folder.content_update _ _ _, fun _ hother => Function.update_of_ne hother _ _⟩
    · obtain ⟨rfl, rfl⟩ := Prod.mk.inj (Option.some.inj h)
      exact ⟨rfl, Folder.content_update _ _ _, fun _ hother => Function.update_of_ne hother _ _⟩
    · cases h
    · cases h
  · cases h

theorem Folder.fputc_of_ne (c : Char) {other : FileName} (hother : other ≠ file) :
    folder.fputc file c other = folder other := by
  simp only [Folder.fputc]
  cases folder file with
  | none => rfl
  | some entry =>
      cases entry with
      | file content readable writable => exact Function.update_of_ne hother _ _
      | directory readable => rfl

theorem Folder.content_fputc {content : List Char} (c : Char)
    (h : folder.content file.val = some content) :
    (folder.fputc file c).content file.val = some (content ++ [c]) := by
  simp only [Folder.content, Folder.lookup_val] at h
  split at h
  · rename_i hentry
    simp only [Folder.fputc, hentry]
    rw [Folder.content_update, Option.some.inj h]
  · cases h
  · cases h

theorem Folder.content_fputs {content : List Char} (text : List Char)
    (h : folder.content file.val = some content) :
    (folder.fputs file text).content file.val = some (content ++ text) := by
  induction text generalizing folder content with
  | nil => rw [Folder.fputs, List.foldl_nil, h, List.append_nil]
  | cons c text ih =>
      rw [Folder.fputs, List.foldl_cons, ← Folder.fputs, ih (Folder.content_fputc c h),
        List.append_assoc, List.singleton_append]

theorem Folder.fputs_of_ne (text : List Char) {other : FileName} (hother : other ≠ file) :
    folder.fputs file text other = folder other := by
  induction text generalizing folder with
  | nil => rfl
  | cons c text ih =>
      rw [Folder.fputs, List.foldl_cons, ← Folder.fputs, ih, Folder.fputc_of_ne c hother]

theorem Folder.redirect_of_ne (text : List Char) {other : FileName} (hother : other.val ≠ path) :
    folder.redirect path text other = folder other := by
  cases hopen : folder.fopenWrite path with
  | none => simp only [Folder.redirect, hopen]
  | some opened =>
      obtain ⟨file, made⟩ := opened
      obtain ⟨rfl, -, hframe⟩ := Folder.fopenWrite_some hopen
      have hne : other ≠ file := fun hsame => hother (congrArg Subtype.val hsame)
      simp only [Folder.redirect, hopen]
      rw [Folder.fputs_of_ne text hne, hframe other hne]

/-- A file that is not there yet is made and gets the output. -/
theorem Folder.content_redirect (text : List Char) (hname : IsFileName path)
    (hfresh : folder.lookup path = none) :
    (folder.redirect path text).content path = some text := by
  rw [Folder.redirect]
  split
  · rename_i hopen
    rw [Folder.lookup, dif_pos hname] at hfresh
    simp [Folder.fopenWrite, hname, hfresh] at hopen
  · rename_i file made hopen
    obtain ⟨rfl, hempty, -⟩ := Folder.fopenWrite_some hopen
    exact Folder.content_fputs text hempty

end LinuxTraining.FileSystem
