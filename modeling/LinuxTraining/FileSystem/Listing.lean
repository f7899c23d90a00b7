import LinuxTraining.FileSystem.AskName
import LinuxTraining.Library.CString
import LinuxTraining.Library.Lines

/-!
`format_data_from_dir`: the table of names and types that is made from a listing. The
listing is read in pieces of 99 characters, and each piece is taken for a line: its first
character gives the type and the text behind its last space the name.
-/
namespace LinuxTraining.PrintsFileNames
open FileSystem Stdio CString

def checkFileType (file_type : Char) : String :=
  match file_type with
  | '-' => "Regular file"
  | 'd' => "Directory file"
  | 'l' => "Link file"
  | 'b' => "Block special file"
  | 'p' => "Named pipe file"
  | 'c' => "Character special file"
  | 's' => "Socket file"
  | _ => "Unknown file type"

structure Row where
  file_name : List Char
  file_type : String
  deriving DecidableEq

def skipped : List Char := "main".toList

def rowOf (line : List Char) : Option Row :=
  if (strstr line skipped).isSome then none
  else
    (strrchr line ' ').map fun file_name =>
      ⟨(file_name.drop 1).takeWhile fun c => c ≠ '\n', checkFileType (line.headD '\x00')⟩

def rowsOf (read : List (List Char)) : List Row :=
  read.filterMap fun piece => rowOf (lineText piece)

def rows (file : List Char) : List Row := rowsOf ((pieces (maxFileName - 1) file).drop 1)

def printLeft (n : Nat) (text : List Char) : List Char :=
  text ++ List.replicate (n - text.length) ' '

def printRow (row : Row) : List Char :=
  "   ".toList ++ printLeft 25 row.file_name ++ printLeft 20 row.file_type.toList ++ ['\n']

def tableHead : List Char :=
  "\n   ".toList ++ printLeft 25 "File Name".toList ++ printLeft 20 "File Type".toList ++ ['\n'] ++
    "----------------------------------------------\n".toList

def formatDataFromDir (file : Option (List Char)) : List Char :=
  match file with
  | none => []
  | some file => tableHead ++ (rows file).flatMap printRow

/-- An entry as `ls -l` lists it on a line; a link with what it leads to. -/
structure DirEntry where
  file_type : Char
  metadata : List Char
  name : List Char
  target : Option (List Char)
  named : name ≠ []
  link : target.isSome ↔ file_type = 'l'
  line_plain : ∀ c ∈ file_type :: (metadata ++ name ++ target.getD []), c ≠ '\n' ∧ c ≠ '\x00'

def linkText : Option (List Char) → List Char
  | none => []
  | some target => " -> ".toList ++ target

def DirEntry.line (e : DirEntry) : List Char :=
  e.file_type :: (e.metadata ++ ' ' :: (e.name ++ linkText e.target))

structure Listing where
  total : UInt64
  entries : List DirEntry

def Listing.totalLine (l : Listing) : List Char :=
  "total ".toList ++ Nat.toDigits 10 l.total.toNat

def Listing.text (l : Listing) : List Char :=
  l.totalLine ++ '\n' :: l.entries.flatMap fun e => e.line ++ ['\n']

def DirEntry.parts (e : DirEntry) : List (List Char) := pieces (maxFileName - 1) (e.line ++ ['\n'])

/-- The row that an entry should have; `main` itself is not listed. -/
def DirEntry.wanted (e : DirEntry) : List Row :=
  if e.name = skipped then [] else [⟨e.name, checkFileType e.file_type⟩]

def Silent (part : List Char) : Prop := (strstr part skipped).isSome ∨ ' ' ∉ part

def Names (e : DirEntry) (part : List Char) : Prop :=
  strstr part skipped = none ∧
    (∃ before name, part = before ++ ' ' :: name ∧ ' ' ∉ name ∧
      (name = e.name ∨ name = e.name ++ ['\n'])) ∧
    checkFileType (part.headD '\x00') = checkFileType e.file_type

/-- One part of the line names the entry and the others are silent; all are for `main`. -/
def ShownOnce (e : DirEntry) : Prop :=
  if e.name = skipped then ∀ part ∈ e.parts, Silent part
  else
    ∃ before part after, e.parts = before ++ part :: after ∧ Names e part ∧
      ∀ other ∈ before ++ after, Silent other

variable {e : DirEntry} {part : List Char}

theorem DirEntry.line_avoids (e : DirEntry) {c : Char} (hc : c = '\n' ∨ c = '\x00') :
    c ∉ e.line := by
  have hplain := e.line_plain
  have havoid : ∀ d ∈ e.file_type :: (e.metadata ++ e.name ++ e.target.getD []), d ≠ c := by
    rintro d hd rfl
    cases hc with
    | inl hsame =>
        subst hsame
        exact (hplain _ hd).1 rfl
    | inr hsame =>
        subst hsame
        exact (hplain _ hd).2 rfl
  have hwords : c ≠ ' ' ∧ c ∉ " -> ".toList := by
    rcases hc with rfl | rfl <;> decide
  intro hmem
  cases htarget : e.target with
  | none =>
      simp only [DirEntry.line, linkText, htarget] at hmem
      simp only [htarget, Option.getD_none, List.append_nil] at havoid
      grind
  | some target =>
      simp only [DirEntry.line, linkText, htarget] at hmem
      simp only [htarget, Option.getD_some] at havoid
      grind

theorem Listing.totalLine_plain (l : Listing) :
    '\n' ∉ l.totalLine ∧ l.totalLine.length < maxFileName - 1 := by
  have hdigits : ∀ c ∈ Nat.toDigits 10 l.total.toNat, c.isDigit = true := fun c hc =>
    Nat.isDigit_of_mem_toDigits (by decide) (by decide) hc
  have hlength := (Nat.length_toDigits_le_iff (b := 10) (n := l.total.toNat) (k := 20) (by decide)
    (by decide)).mpr (by have := l.total.toNat_lt; omega)
  refine ⟨fun hmem => ?_, ?_⟩
  · cases List.mem_append.mp hmem with
    | inl hword => exact absurd hword (by decide)
    | inr hdigit => exact absurd (hdigits _ hdigit) (by decide)
  · have hword : "total ".toList.length = 6 := by decide
    have hsum : l.totalLine.length =
        "total ".toList.length + (Nat.toDigits 10 l.total.toNat).length := List.length_append
    rw [hword] at hsum
    rw [hsum, maxFileName]
    omega

theorem pieces_entries (entries : List DirEntry) :
    pieces (maxFileName - 1) (entries.flatMap fun e => e.line ++ ['\n']) =
      entries.flatMap DirEntry.parts := by
  induction entries with
  | nil => rfl
  | cons e entries ih =>
      rw [List.flatMap_cons, List.flatMap_cons, List.append_assoc, List.singleton_append,
        pieces_line (by decide) (e.line_avoids (.inl rfl)), ih]
      rfl

/-- The rows of a listing are those of its entries, in their order. -/
theorem rows_text (l : Listing) : rows l.text = l.entries.flatMap fun e => rowsOf e.parts := by
  obtain ⟨hplain, hshort⟩ := l.totalLine_plain
  rw [rows, Listing.text, pieces_line (by decide) hplain, pieces_short hplain hshort,
    pieces_entries]
  rw [List.singleton_append, List.drop_succ_cons, List.drop_zero, rowsOf, List.filterMap_flatMap]
  rfl

theorem rowOf_eq_none (part : List Char) : rowOf part = none ↔ Silent part := by
  rw [rowOf, Silent]
  by_cases hmain : (strstr part skipped).isSome
  · simp [hmain]
  · simp [hmain, strrchr_none]

theorem rowOf_eq_some {row : Row} : rowOf part = some row ↔
    strstr part skipped = none ∧ ∃ before name, part = before ++ ' ' :: name ∧ ' ' ∉ name ∧
      row = ⟨name.takeWhile fun c => c ≠ '\n', checkFileType (part.headD '\x00')⟩ := by
  rw [rowOf]
  by_cases hmain : (strstr part skipped).isSome
  · rw [if_pos hmain]
    simp only [reduceCtorEq, false_iff, not_and]
    intro hnone
    rw [hnone] at hmain
    cases hmain
  · rw [if_neg hmain, Option.not_isSome_iff_eq_none.mp hmain]
    simp only [true_and]
    constructor
    · intro hrow
      obtain ⟨found, hfound, rfl⟩ := Option.map_eq_some_iff.mp hrow
      have hspace : ' ' ∈ part := by
        by_contra hnot
        rw [strrchr_none.mpr hnot] at hfound
        cases hfound
      obtain ⟨before, name, hpart, hlast⟩ := exists_last hspace
      rw [hpart, strrchr_append_cons before hlast] at hfound
      refine ⟨before, name, hpart, hlast, ?_⟩
      rw [← Option.some.inj hfound]
      rfl
    · rintro ⟨before, name, hpart, hlast, rfl⟩
      have hfound := strrchr_append_cons before hlast
      rw [← hpart] at hfound
      rw [hfound]
      rfl

theorem takeWhile_line {name wanted : List Char} (hname : '\n' ∉ name.dropLast)
    (hwanted : '\n' ∉ wanted) :
    (name.takeWhile fun c => c ≠ '\n') = wanted ↔ name = wanted ∨ name = wanted ++ ['\n'] := by
  have hwhole : ∀ t : List Char, '\n' ∉ t → ∀ rest,
      (t ++ rest).takeWhile (fun c => c ≠ '\n') = t ++ rest.takeWhile fun c => c ≠ '\n' :=
    fun t ht rest => List.takeWhile_append_of_pos fun c hc => decide_eq_true fun h => ht (h ▸ hc)
  constructor
  · intro hsame
    cases List.eq_nil_or_concat name with
    | inl hnil =>
        rw [hnil] at hsame
        exact .inl (hnil.trans hsame)
    | inr hlast =>
        obtain ⟨init, c, rfl⟩ := hlast
        rw [List.concat_eq_append] at hname hsame ⊢
        rw [List.dropLast_concat] at hname
        rw [hwhole init hname] at hsame
        by_cases hc : c = '\n'
        · subst hc
          refine .inr ?_
          rw [← hsame]
          simp
        · refine .inl ?_
          rw [← hsame]
          simp [hc]
  · have hall := hwhole wanted hwanted
    rintro (rfl | rfl)
    · have hnil := hall []
      rw [List.append_nil] at hnil
      rw [hnil]
      exact List.append_nil _
    · rw [hall]
      simp

theorem DirEntry.name_plain (e : DirEntry) : '\n' ∉ e.name := fun hmem =>
  e.line_avoids (.inl rfl) (List.mem_cons_of_mem _ (List.mem_append_right _
    (List.mem_cons_of_mem _ (List.mem_append_left _ hmem))))

theorem dropLast_behind {before name : List Char}
    (hline : '\n' ∉ (before ++ ' ' :: name).dropLast) :
    '\n' ∉ name.dropLast := by
  rw [List.dropLast_append_of_ne_nil (List.cons_ne_nil _ _)] at hline
  cases name with
  | nil => exact List.not_mem_nil
  | cons c name => exact fun hmem => hline (List.mem_append_right _ (List.mem_cons_of_mem _ hmem))

theorem rowOf_wanted (hline : '\n' ∉ part.dropLast) :
    rowOf part = some ⟨e.name, checkFileType e.file_type⟩ ↔ Names e part := by
  rw [rowOf_eq_some, Names]
  refine and_congr_right fun _ => ?_
  constructor
  · rintro ⟨before, name, hpart, hlast, hrow⟩
    obtain ⟨hname, htype⟩ := Row.mk.inj hrow
    have hplain : '\n' ∉ name.dropLast := dropLast_behind (hpart ▸ hline)
    exact ⟨⟨before, name, hpart, hlast, (takeWhile_line hplain e.name_plain).mp hname.symm⟩,
      htype.symm⟩
  · rintro ⟨⟨before, name, hpart, hlast, hname⟩, htype⟩
    have hplain : '\n' ∉ name.dropLast := dropLast_behind (hpart ▸ hline)
    refine ⟨before, name, hpart, hlast, ?_⟩
    rw [htype, (takeWhile_line hplain e.name_plain).mpr hname]

theorem rowsOf_parts (e : DirEntry) : rowsOf e.parts = e.parts.filterMap rowOf := by
  refine List.filterMap_congr fun part hpart => ?_
  rw [lineText_plain]
  intro hnul
  have hmem := mem_of_mem_pieces (by decide) hpart hnul
  cases List.mem_append.mp hmem with
  | inl hline => exact e.line_avoids (.inr rfl) hline
  | inr hend => exact absurd hend (by decide)

theorem rowsOf_wanted_iff (e : DirEntry) : rowsOf e.parts = e.wanted ↔ ShownOnce e := by
  have hplain : ∀ part ∈ e.parts, '\n' ∉ part.dropLast := fun part hpart =>
    newline_of_mem_pieces (by decide) hpart
  rw [rowsOf_parts, DirEntry.wanted, ShownOnce]
  split
  · simp only [List.filterMap_eq_nil_iff, rowOf_eq_none]
  · simp only [List.filterMap_eq_cons_iff, List.filterMap_eq_nil_iff, rowOf_eq_none]
    constructor
    · rintro ⟨before, part, after, hparts, hbefore, hrow, hafter⟩
      have hpart : part ∈ e.parts := by
        rw [hparts]
        exact List.mem_append_right _ List.mem_cons_self
      refine ⟨before, part, after, hparts, (rowOf_wanted (hplain part hpart)).mp hrow, ?_⟩
      intro other hother
      cases List.mem_append.mp hother with
      | inl hmem => exact hbefore other hmem
      | inr hmem => exact hafter other hmem
    · rintro ⟨before, part, after, hparts, hnames, hsilent⟩
      have hpart : part ∈ e.parts := by
        rw [hparts]
        exact List.mem_append_right _ List.mem_cons_self
      exact ⟨before, part, after, hparts,
        fun other hmem => hsilent other (List.mem_append_left _ hmem),
        (rowOf_wanted (hplain part hpart)).mpr hnames,
        fun other hmem => hsilent other (List.mem_append_right _ hmem)⟩

theorem line_skipped (h : e.name = skipped) : strstr e.line skipped ≠ none := by
  intro hnone
  refine strstr_none (by decide) hnone (e.metadata.length + 2) ?_
  have hdrop : e.line.drop (e.metadata.length + 2) = e.name ++ linkText e.target := by
    rw [DirEntry.line, List.drop_succ_cons, List.drop_length_add_append]
    rfl
  rw [Occurs, hdrop, h]
  exact List.prefix_append _ _

theorem strstr_newline (line : List Char) :
    strstr (line ++ ['\n']) skipped = strstr line skipped := by
  rw [strstr_append_cons line [] (by decide) (by decide)]
  exact Option.or_none

/-- The text behind the last space of the line is the name. -/
theorem ends_in_name_iff (e : DirEntry) :
    (∃ before, e.line = before ++ ' ' :: e.name ∧ ' ' ∉ e.name) ↔
      ' ' ∉ e.name ∧ ∀ target, e.target = some target →
        target = e.name ∨ ' ' :: e.name <:+ target := by
  have harrow : ∀ target, e.target = some target → e.line =
      (e.file_type :: (e.metadata ++ ' ' :: (e.name ++ " ->".toList))) ++ ' ' :: target := by
    intro target htarget
    simp [DirEntry.line, linkText, htarget]
  constructor
  · rintro ⟨before, hline, hlast⟩
    refine ⟨hlast, fun target htarget => ?_⟩
    have hname : ' ' :: e.name <:+ e.line := ⟨before, hline.symm⟩
    have htext : ' ' :: target <:+ e.line := ⟨_, (harrow target htarget).symm⟩
    cases List.suffix_or_suffix_of_suffix hname htext with
    | inl hshorter =>
        cases List.suffix_cons_iff.mp hshorter with
        | inl hsame => exact .inl (List.cons.inj hsame).2.symm
        | inr hinside => exact .inr hinside
    | inr hlonger =>
        cases List.suffix_cons_iff.mp hlonger with
        | inl hsame => exact .inl (List.cons.inj hsame).2
        | inr hinside => exact absurd (hinside.subset List.mem_cons_self) hlast
  · rintro ⟨hlast, hlink⟩
    cases htarget : e.target with
    | none =>
        refine ⟨e.file_type :: e.metadata, ?_, hlast⟩
        simp [DirEntry.line, linkText, htarget]
    | some target =>
        cases hlink target htarget with
        | inl hsame => exact ⟨_, hsame ▸ harrow target htarget, hlast⟩
        | inr hinside =>
            obtain ⟨front, rfl⟩ := hinside
            refine ⟨e.file_type :: (e.metadata ++ ' ' :: (e.name ++ " ->".toList)) ++ ' ' :: front,
              ?_, hlast⟩
            rw [harrow _ htarget]
            simp only [List.append_assoc, List.cons_append]

theorem shownOnce_short (hshort : e.line.length < maxFileName - 1) :
    ShownOnce e ↔ e.name = skipped ∨ strstr e.line skipped = none ∧ ' ' ∉ e.name ∧
      ∀ target, e.target = some target → target = e.name ∨ ' ' :: e.name <:+ target := by
  have hparts : e.parts = [e.line ++ ['\n']] := pieces_short (e.line_avoids (.inl rfl)) hshort
  rw [← ends_in_name_iff, ShownOnce, hparts]
  split
  · rename_i hmain
    simp only [hmain, true_or, iff_true, List.mem_singleton, forall_eq]
    exact .inl (by rw [strstr_newline, Option.isSome_iff_ne_none]; exact line_skipped hmain)
  · rename_i hmain
    rw [← strstr_newline, or_iff_right hmain]
    constructor
    · rintro ⟨before, part, after, hone, ⟨hnone, ⟨front, name, hpart, hlast, hname⟩, -⟩, -⟩
      have hsame : part = e.line ++ ['\n'] := by
        cases before with
        | nil => exact (List.cons.inj hone).1.symm
        | cons other before =>
            have hlength := congrArg List.length hone
            simp at hlength
      rw [hsame] at hnone hpart
      refine ⟨hnone, ?_⟩
      cases hname with
      | inl hwhole =>
          -- the newline would belong to the name
          rw [hwhole] at hpart
          have hend := congrArg List.getLast? hpart
          rw [List.getLast?_concat, List.getLast?_append_of_ne_nil _ (List.cons_ne_nil _ _),
            List.getLast?_cons_of_ne_nil e.named] at hend
          exact absurd (List.mem_of_getLast? hend.symm) e.name_plain
      | inr hnewline =>
          rw [hnewline, ← List.cons_append, ← List.append_assoc] at hpart
          rw [hnewline] at hlast
          exact ⟨front, List.append_cancel_right hpart,
            fun hmem => hlast (List.mem_append_left _ hmem)⟩
    · rintro ⟨hnone, front, hline, hlast⟩
      refine ⟨[], e.line ++ ['\n'], [], rfl, ⟨hnone, ?_, rfl⟩, fun other hother => ?_⟩
      · refine ⟨front, e.name ++ ['\n'], by rw [hline]; simp, fun hmem => ?_, .inr rfl⟩
        cases List.mem_append.mp hmem with
        | inl hname => exact hlast hname
        | inr hend => exact absurd hend (by decide)
      · exact absurd hother List.not_mem_nil

/-- The table has the rows of the entries in their order, and an entry has its own row, or
none if it is called `main`, exactly if one part of its line names it. A line that is read at
once does so if it is for `main`, or has no such text in it, the name has no space, and what a
link leads to ends in the name of the link. -/
theorem entries_shown_iff (l : Listing) :
    formatDataFromDir (some l.text) =
        tableHead ++ l.entries.flatMap (fun e => (rowsOf e.parts).flatMap printRow) ∧
      ((∀ e ∈ l.entries, rowsOf e.parts = e.wanted) ↔ ∀ e ∈ l.entries, ShownOnce e) ∧
      ∀ e ∈ l.entries, e.line.length < maxFileName - 1 →
        (ShownOnce e ↔ e.name = skipped ∨ strstr e.line skipped = none ∧ ' ' ∉ e.name ∧
          ∀ target, e.target = some target → target = e.name ∨ ' ' :: e.name <:+ target) := by
  refine ⟨?_, ?_, fun e _ => shownOnce_short⟩
  · rw [formatDataFromDir, rows_text, List.flatMap_assoc]
  · exact forall₂_congr fun e _ => rowsOf_wanted_iff e

theorem plain_of_all {text : List Char}
    (h : (text.all fun c => c ≠ '\n' && c ≠ '\x00') = true) :
    ∀ c ∈ text, c ≠ '\n' ∧ c ≠ '\x00' := by
  simpa using h

def notesEntry : DirEntry :=
  ⟨'-', "rw- 1 user".toList, "notes".toList, none, by decide, by decide,
    plain_of_all (by decide)⟩

def spacedEntry : DirEntry :=
  ⟨'-', "rw- 1 user".toList, "my file".toList, none, by decide, by decide,
    plain_of_all (by decide)⟩

def linkedEntry : DirEntry :=
  ⟨'l', "rwx 1 user".toList, "here".toList, some "there".toList, by decide, by decide,
    plain_of_all (by decide)⟩

def ownedEntry : DirEntry :=
  ⟨'-', "rw- 1 domain".toList, "notes".toList, none, by decide, by decide,
    plain_of_all (by decide)⟩

def docsEntry : DirEntry :=
  ⟨'d', "rwx 4 user".toList, "docs".toList, none, by decide, by decide,
    plain_of_all (by decide)⟩

def libEntry : DirEntry :=
  ⟨'l', "rwx 1 user".toList, "lib".toList, some "usr lib".toList, by decide, by decide,
    plain_of_all (by decide)⟩

def mainEntry : DirEntry :=
  ⟨'-', "rwx 1 user".toList, "main".toList, none, by decide, by decide,
    plain_of_all (by decide)⟩

theorem entries_shown_notes :
    rows (Listing.text ⟨16, [notesEntry, docsEntry, libEntry, mainEntry]⟩) =
      [⟨"notes".toList, "Regular file"⟩, ⟨"docs".toList, "Directory file"⟩,
        ⟨"lib".toList, "Link file"⟩] := by
  have hiff := entries_shown_iff ⟨16, [notesEntry, docsEntry, libEntry, mainEntry]⟩
  have hshort : ∀ e ∈ [notesEntry, docsEntry, libEntry, mainEntry],
      e.line.length < maxFileName - 1 := by
    simp only [List.forall_mem_cons]
    exact ⟨by decide, by decide, by decide, by decide, fun _ h => absurd h List.not_mem_nil⟩
  have hshown : ∀ e ∈ [notesEntry, docsEntry, libEntry, mainEntry], ShownOnce e := by
    intro e he
    refine (hiff.2.2 e he (hshort e he)).mpr ?_
    simp only [List.mem_cons, List.not_mem_nil, or_false] at he
    rcases he with rfl | rfl | rfl | rfl
    · exact .inr ⟨by decide, by decide, fun target htarget => by cases htarget⟩
    · exact .inr ⟨by decide, by decide, fun target htarget => by cases htarget⟩
    · refine .inr ⟨by decide, by decide, fun target htarget => ?_⟩
      cases htarget
      exact .inr ⟨"usr".toList, rfl⟩
    · exact .inl rfl
  rw [rows_text, List.flatMap_congr (hiff.2.1.mpr hshown)]
  decide

/-- A name with a space is cut, a link goes by the name of what it leads to, and a file of
an owner whose name has `main` in it is left out. -/
theorem entries_not_shown :
    (rows (Listing.text ⟨8, [spacedEntry, linkedEntry, ownedEntry]⟩)).map
        (fun row => row.file_name) =
      ["file".toList, "there".toList] ∧
    rowsOf spacedEntry.parts ≠ spacedEntry.wanted ∧ rowsOf linkedEntry.parts ≠ linkedEntry.wanted ∧
    rowsOf ownedEntry.parts ≠ ownedEntry.wanted := by
  decide +kernel

end LinuxTraining.PrintsFileNames
