import LinuxTraining.Library.Stdio

/-!
The file `output.txt` of the signal-synchronised processes: the line that
`write_to_file` appends, and how `get_number_of_last_line` scans it back.
-/
namespace LinuxTraining.SignalSync
open Stdio

def maxSize : Nat := 256

def FitsInt (n : Int) : Prop := -2 ^ 31 ≤ n ∧ n < 2 ^ 31

instance (n : Int) : Decidable (FitsInt n) := inferInstanceAs (Decidable (_ ∧ _))

abbrev CInt := {n : Int // FitsInt n}

/-- What `write_to_file` appends: `"Process %i: %i\n"`. -/
def writeToFile (pid counter : Int) : List Char :=
  ['P', 'r', 'o', 'c', 'e', 's', 's', ' '] ++ printInt pid ++ [':', ' '] ++
    printInt counter ++ ['\n']

/-- The format `"Process %*d: %d"`. -/
def lineFormat : List Directive :=
  ['P', 'r', 'o', 'c', 'e', 's', 's'].map .literal ++
    [.space, .int false, .literal ':', .space, .int true]

/-- One turn of the loop: the line is copied as a string, and its number is kept
when exactly one is found. -/
def scanLine (line : List Char) (last_number : Int) : Int :=
  match sscanf lineFormat (line.takeWhile fun c => c ≠ '\x00') with
  | [.int temp_number] => temp_number
  | _ => last_number

/-- The loop of `get_number_of_last_line` over what is left of the file. -/
def scanLines (text : List Char) (last_number : Int) : Int :=
  if (fgets (maxSize - 1) text).1 = [] then last_number
  else
    scanLines (fgets (maxSize - 1) text).2 (scanLine (fgets (maxSize - 1) text).1 last_number)
termination_by text.length
decreasing_by
  rename_i hline
  have hlength := congrArg List.length (fgets_append (maxSize - 1) text)
  have hpos := List.length_pos_iff.mpr hline
  rw [List.length_append] at hlength
  omega

/-- `get_number_of_last_line`; `none` is a file that does not open. -/
def getNumberOfLastLine : Option (List Char) → Int
  | none => 1
  | some text => scanLines text 0

structure Line where
  pid : CInt
  number : CInt

def fileText (lines : List Line) : List Char :=
  lines.flatMap fun l => writeToFile l.pid l.number

def lastNumber (lines : List Line) : Int :=
  (lines.getLast?.map fun l => l.number.val).getD 0

theorem fileText_append (lines : List Line) (l : Line) :
    fileText (lines ++ [l]) = fileText lines ++ writeToFile l.pid l.number := by
  simp [fileText]

theorem lastNumber_append (lines : List Line) (l : Line) :
    lastNumber (lines ++ [l]) = l.number := by
  simp [lastNumber]

theorem scanLines_end {text : List Char} {last : Int}
    (hline : (fgets (maxSize - 1) text).1 = []) : scanLines text last = last := by
  rw [scanLines, if_pos hline]

theorem scanLines_next {text : List Char} (last : Int)
    (hline : (fgets (maxSize - 1) text).1 ≠ []) :
    scanLines (text.drop (fgets (maxSize - 1) text).1.length)
      (scanLine (fgets (maxSize - 1) text).1 last) = scanLines text last := by
  have hrest : text.drop (fgets (maxSize - 1) text).1.length =
      (fgets (maxSize - 1) text).2 := by
    conv =>
      lhs
      arg 2
      rw [← fgets_append (maxSize - 1) text]
    rw [List.drop_left]
  rw [scanLines.eq_def text, if_neg hline, hrest]

def lineBody (pid counter : Int) : List Char :=
  ['P', 'r', 'o', 'c', 'e', 's', 's', ' '] ++ printInt pid ++ [':', ' '] ++ printInt counter

theorem writeToFile_eq (pid counter : Int) :
    writeToFile pid counter = lineBody pid counter ++ ['\n'] := rfl

theorem lineBody_avoids (pid counter : Int) {d : Char} (hminus : d ≠ '-')
    (hdigit : d.isDigit = false)
    (hword : ∀ c ∈ ['P', 'r', 'o', 'c', 'e', 's', 's', ' ', ':'], c ≠ d) :
    ∀ c ∈ lineBody pid counter, c ≠ d := by
  intro c hc
  simp only [lineBody, List.mem_append] at hc
  rcases hc with ((hc | hc) | hc) | hc
  · exact hword c (by simp at hc ⊢; tauto)
  · exact printInt_avoids pid hminus hdigit c hc
  · exact hword c (by simp at hc ⊢; tauto)
  · exact printInt_avoids counter hminus hdigit c hc

theorem lineBody_length {pid counter : Int} (hpid : FitsInt pid) (hcounter : FitsInt counter) :
    (lineBody pid counter).length ≤ 32 := by
  have hfirst := printInt_length (n := pid) (by
    have := hpid.1
    have := hpid.2
    omega)
  have hsecond := printInt_length (n := counter) (by
    have := hcounter.1
    have := hcounter.2
    omega)
  simp only [lineBody, List.length_append, List.length_cons, List.length_nil]
  omega

/-- The number that was written is the number that is scanned back. -/
theorem scanLine_writeToFile (pid counter last : Int) :
    scanLine (writeToFile pid counter) last = counter := by
  have hplain : ∀ c ∈ writeToFile pid counter, c ≠ '\x00' := by
    intro c hc
    rw [writeToFile_eq, List.mem_append] at hc
    cases hc with
    | inl hc =>
        exact lineBody_avoids pid counter (by decide) (by decide) (by simp) c hc
    | inr hc =>
        rw [List.mem_singleton.mp hc]
        decide
  have hstring : (writeToFile pid counter).takeWhile (fun c => c ≠ '\x00') =
      writeToFile pid counter := List.takeWhile_eq_self_iff.mpr (by simpa using hplain)
  have hpid := scanInt_printInt pid (':' :: ' ' :: (printInt counter ++ ['\n']))
    (by simp)
  have hcounter := scanInt_printInt counter ['\n'] (by simp)
  have hsplit : writeToFile pid counter = ['P', 'r', 'o', 'c', 'e', 's', 's'] ++
      ' ' :: (printInt pid ++ ':' :: ' ' :: (printInt counter ++ ['\n'])) := by
    simp [writeToFile]
  have hscan : sscanf lineFormat (writeToFile pid counter) = [.int counter] := by
    rw [hsplit, lineFormat, sscanf_word]
    simp only [sscanf, scanInt_skip, scanInt_space (c := ' ') (by decide), hpid, hcounter,
      if_true, Bool.false_eq_true, if_false]
  rw [scanLine, hstring, hscan]

/-- Reading a file of the program from one of its lines on. -/
theorem scanLines_fileText (lines : List Line) (last : Int) :
    scanLines (fileText lines) last = (lines.getLast?.map fun l => l.number.val).getD last := by
  induction lines generalizing last with
  | nil =>
      rw [scanLines]
      rfl
  | cons l lines ih =>
      have hline : fgets (maxSize - 1) (fileText (l :: lines)) =
          (writeToFile l.pid l.number, fileText lines) := by
        have hfits := lineBody_length l.pid.property l.number.property
        have hroom : (lineBody l.pid l.number).length < maxSize - 1 := by
          unfold maxSize
          omega
        have hfgets := fgets_line (fileText lines)
          (lineBody_avoids l.pid l.number (by decide) (by decide) (by simp)) hroom
        simpa [fileText, writeToFile_eq] using hfgets
      rw [scanLines, hline, if_neg (by simp [writeToFile]), ih, scanLine_writeToFile]
      cases lines with
      | nil => rfl
      | cons m lines => simp [List.getLast?_cons]

theorem getNumberOfLastLine_fileText (lines : List Line) :
    getNumberOfLastLine (some (fileText lines)) = lastNumber lines :=
  scanLines_fileText lines 0

end LinuxTraining.SignalSync
