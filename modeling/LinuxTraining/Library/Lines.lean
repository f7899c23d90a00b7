import LinuxTraining.Library.Stdio

/-!
Files of lines. A program that calls `fgets` until the file ends takes it in pieces:
each line by itself, and a line that is longer than the array one part after the other.
A format of conversions and separators in turn takes a line apart at the separators.
-/
namespace Stdio

def lines : List Char → List (List Char)
  | [] => []
  | c :: rest =>
      if c = '\n' then [c] :: lines rest
      else
        match lines rest with
        | [] => [[c]]
        | line :: more => (c :: line) :: more

/-- What `fgets` stores, one call after the other, until it finds the end of the file. -/
def readPieces (room : Nat) : (fuel : Nat) → List Char → List (List Char)
  | 0, _ => []
  | fuel + 1, text =>
      if (fgets room text).1 = [] then []
      else (fgets room text).1 :: readPieces room fuel (fgets room text).2

/-- Every call takes a character at least. -/
def pieces (room : Nat) (text : List Char) : List (List Char) := readPieces room text.length text

def lineText (piece : List Char) : List Char := piece.takeWhile fun c => c ≠ '\x00'

def separatedFormat (c : Char) : Nat → List Directive
  | 0 => []
  | n + 1 => .before c :: .literal c :: separatedFormat c n

variable {room : Nat} {text line rest : List Char}

theorem lines_line (hplain : '\n' ∉ line) (rest : List Char) :
    lines (line ++ '\n' :: rest) = (line ++ ['\n']) :: lines rest := by
  induction line with
  | nil => rfl
  | cons c line ih =>
      have hc : c ≠ '\n' := fun h => hplain (h ▸ List.mem_cons_self)
      have hline : '\n' ∉ line := fun h => hplain (List.mem_cons_of_mem c h)
      rw [List.cons_append, lines, if_neg hc, ih hline]
      rfl

theorem lines_last (hplain : '\n' ∉ line) (hne : line ≠ []) : lines line = [line] := by
  induction line with
  | nil => exact absurd rfl hne
  | cons c line ih =>
      have hc : c ≠ '\n' := fun h => hplain (h ▸ List.mem_cons_self)
      have hline : '\n' ∉ line := fun h => hplain (List.mem_cons_of_mem c h)
      rw [lines, if_neg hc]
      cases line with
      | nil => rfl
      | cons d line => rw [ih hline (List.cons_ne_nil d line)]

/-- A text is the rest of a last line, or a line and what follows it. -/
theorem text_cases (text : List Char) :
    '\n' ∉ text ∨ ∃ line rest, text = line ++ '\n' :: rest ∧ '\n' ∉ line := by
  by_cases h : '\n' ∈ text
  · exact .inr (List.eq_append_cons_of_mem h)
  · exact .inl h

theorem fgets_ne_nil (hroom : 0 < room) (hne : text ≠ []) : (fgets room text).1 ≠ [] := by
  cases room with
  | zero => exact absurd hroom (Nat.lt_irrefl 0)
  | succ room =>
      cases text with
      | nil => exact absurd rfl hne
      | cons c rest =>
          rw [fgets]
          split <;> exact List.cons_ne_nil _ _

theorem fgets_rest_lt (hroom : 0 < room) (hne : text ≠ []) :
    (fgets room text).2.length < text.length := by
  have hlength := congrArg List.length (fgets_append room text)
  have hpos := List.length_pos_iff.mpr (fgets_ne_nil hroom hne)
  rw [List.length_append] at hlength
  omega

/-- A part of a line that fills the array. -/
theorem fgets_part (hplain : '\n' ∉ line) (hlong : room ≤ line.length) (rest : List Char) :
    fgets room (line ++ rest) = (line.take room, line.drop room ++ rest) := by
  induction room generalizing line with
  | zero =>
      rw [fgets]
      rfl
  | succ room ih =>
      cases line with
      | nil => exact absurd hlong (Nat.not_succ_le_zero room)
      | cons c line =>
          have hc : c ≠ '\n' := fun h => hplain (h ▸ List.mem_cons_self)
          have hline : '\n' ∉ line := fun h => hplain (List.mem_cons_of_mem c h)
          rw [List.cons_append, fgets, if_neg hc, ih hline (Nat.le_of_succ_le_succ hlong)]
          rfl

/-- A part that does not fill the array is followed by what fits in after it. -/
theorem fgets_front (hplain : '\n' ∉ line) (hshort : line.length ≤ room) (rest : List Char) :
    (fgets room (line ++ rest)).1 = line ++ (fgets (room - line.length) rest).1 := by
  induction line generalizing room with
  | nil => rfl
  | cons c line ih =>
      cases room with
      | zero => exact absurd hshort (Nat.not_succ_le_zero line.length)
      | succ room =>
          have hc : c ≠ '\n' := fun h => hplain (h ▸ List.mem_cons_self)
          have hline : '\n' ∉ line := fun h => hplain (List.mem_cons_of_mem c h)
          rw [List.cons_append, fgets, if_neg hc, List.length_cons, Nat.succ_sub_succ]
          exact congrArg (c :: ·) (ih hline (Nat.le_of_succ_le_succ hshort))

theorem readPieces_nil (room fuel : Nat) : readPieces room fuel [] = [] := by
  cases fuel with
  | zero => rfl
  | succ fuel =>
      cases room with
      | zero => rfl
      | succ room => rfl

/-- The fuel does not matter, when it is enough. -/
theorem readPieces_fuel (hroom : 0 < room) {fuel : Nat} (h : text.length ≤ fuel) :
    readPieces room fuel text = pieces room text := by
  induction hlen : text.length using Nat.strong_induction_on generalizing text fuel with
  | _ n ih =>
      by_cases hne : text = []
      · rw [hne, pieces, readPieces_nil, readPieces_nil]
      · have hpos := List.length_pos_iff.mpr hne
        have hlt := fgets_rest_lt hroom hne
        obtain ⟨more, hmore⟩ := Nat.exists_eq_succ_of_ne_zero (Nat.ne_of_gt hpos)
        obtain ⟨left, hleft⟩ := Nat.exists_eq_succ_of_ne_zero (show fuel ≠ 0 by omega)
        have hboth : ∀ fuel, (fgets room text).2.length ≤ fuel →
            readPieces room fuel (fgets room text).2 = pieces room (fgets room text).2 :=
          fun fuel hfuel => ih _ (by omega) hfuel rfl
        rw [pieces, hmore, hleft, readPieces, readPieces, hboth left (by omega),
          hboth more (by omega)]

theorem pieces_nil (room : Nat) : pieces room [] = [] := rfl

theorem pieces_cons (hroom : 0 < room) (hne : text ≠ []) :
    pieces room text = (fgets room text).1 :: pieces room (fgets room text).2 := by
  have hlt := fgets_rest_lt hroom hne
  rw [← readPieces_fuel hroom (Nat.le_succ text.length), readPieces,
    if_neg (fgets_ne_nil hroom hne), readPieces_fuel hroom (Nat.le_of_lt hlt)]

theorem pieces_short (hplain : '\n' ∉ line) (hshort : line.length < room) :
    pieces room (line ++ ['\n']) = [line ++ ['\n']] := by
  rw [pieces_cons (Nat.zero_lt_of_lt hshort) (by simp),
    fgets_line [] (fun c hc h => hplain (h ▸ hc)) hshort, pieces_nil]

theorem pieces_line (hroom : 0 < room) (hplain : '\n' ∉ line) (rest : List Char) :
    pieces room (line ++ '\n' :: rest) = pieces room (line ++ ['\n']) ++ pieces room rest := by
  induction hlen : line.length using Nat.strong_induction_on generalizing line with
  | _ n ih =>
      have hne : ∀ rest, line ++ '\n' :: rest ≠ [] := fun rest h => by
        simp at h
      rw [pieces_cons hroom (hne rest), pieces_cons hroom (hne [])]
      by_cases hfits : line.length < room
      · have hline : ∀ c ∈ line, c ≠ '\n' := fun c hc h => hplain (h ▸ hc)
        rw [fgets_line rest hline hfits, fgets_line [] hline hfits]
        rfl
      · have hlong : room ≤ line.length := Nat.not_lt.mp hfits
        have hdrop : '\n' ∉ line.drop room := fun h => hplain (List.mem_of_mem_drop h)
        have hshorter : (line.drop room).length < n := by
          rw [List.length_drop]
          omega
        rw [fgets_part hplain hlong, fgets_part hplain hlong, ih _ hshorter hdrop rfl]
        rfl

/-- A file is read line after line, whatever the lengths of its lines. -/
theorem pieces_eq_flatMap (hroom : 0 < room) (text : List Char) :
    pieces room text = (lines text).flatMap (pieces room) := by
  induction hlen : text.length using Nat.strong_induction_on generalizing text with
  | _ n ih =>
      cases text_cases text with
      | inl hplain =>
          by_cases hne : text = []
          · rw [hne]
            rfl
          · rw [lines_last hplain hne, List.flatMap_singleton]
      | inr hline =>
          obtain ⟨line, rest, rfl, hplain⟩ := hline
          have hshorter : rest.length < n := by
            rw [← hlen, List.length_append, List.length_cons]
            omega
          rw [pieces_line hroom hplain, lines_line hplain, List.flatMap_cons,
            ih _ hshorter rest rfl]

theorem mem_of_mem_pieces {piece : List Char} {c : Char} (hroom : 0 < room)
    (hpiece : piece ∈ pieces room text) (hc : c ∈ piece) : c ∈ text := by
  induction hlen : text.length using Nat.strong_induction_on generalizing text with
  | _ n ih =>
      by_cases hne : text = []
      · rw [hne, pieces_nil] at hpiece
        exact absurd hpiece List.not_mem_nil
      · rw [pieces_cons hroom hne] at hpiece
        rw [← fgets_append room text]
        cases List.mem_cons.mp hpiece with
        | inl hfirst => exact List.mem_append_left _ (hfirst ▸ hc)
        | inr hmore =>
            have hlt := fgets_rest_lt hroom hne
            exact List.mem_append_right _ (ih _ (by omega) hmore rfl)

theorem fgets_newline (room : Nat) (text : List Char) : '\n' ∉ (fgets room text).1.dropLast := by
  induction room generalizing text with
  | zero => exact List.not_mem_nil
  | succ room ih =>
      cases text with
      | nil => exact List.not_mem_nil
      | cons c rest =>
          rw [fgets]
          split
          · exact List.not_mem_nil
          · rename_i hc
            have hmore := ih rest
            show '\n' ∉ (c :: (fgets room rest).1).dropLast
            cases hpiece : (fgets room rest).1 with
            | nil => exact List.not_mem_nil
            | cons d piece =>
                rw [hpiece] at hmore
                rw [List.dropLast_cons_cons, List.mem_cons, not_or]
                exact ⟨fun h => hc h.symm, hmore⟩

theorem newline_of_mem_pieces {piece : List Char} (hroom : 0 < room)
    (hpiece : piece ∈ pieces room text) : '\n' ∉ piece.dropLast := by
  induction hlen : text.length using Nat.strong_induction_on generalizing text with
  | _ n ih =>
      by_cases hne : text = []
      · rw [hne, pieces_nil] at hpiece
        exact absurd hpiece List.not_mem_nil
      · rw [pieces_cons hroom hne] at hpiece
        cases List.mem_cons.mp hpiece with
        | inl hfirst => exact hfirst ▸ fgets_newline room text
        | inr hmore =>
            have hlt := fgets_rest_lt hroom hne
            exact ih _ (by omega) hmore rfl

theorem lineText_append (hplain : '\x00' ∉ line) (rest : List Char) :
    lineText (line ++ rest) = line ++ lineText rest :=
  List.takeWhile_append_of_pos fun _ hc => decide_eq_true fun h => hplain (h ▸ hc)

theorem lineText_plain (hplain : '\x00' ∉ line) : lineText line = line := by
  have happend := lineText_append hplain []
  rw [List.append_nil] at happend
  rw [happend]
  exact List.append_nil line

theorem prefix_lineText {word : List Char} (hplain : '\x00' ∉ word) (piece : List Char) :
    word <+: lineText piece ↔ word <+: piece := by
  refine ⟨fun h => h.trans (List.takeWhile_prefix _), ?_⟩
  rintro ⟨rest, rfl⟩
  rw [lineText_append hplain]
  exact List.prefix_append _ _

theorem not_mem_intercalate {c d : Char} {parts : List (List Char)} (hne : d ≠ c)
    (h : ∀ part ∈ parts, d ∉ part) : d ∉ [c].intercalate parts := by
  induction parts with
  | nil => simp
  | cons part parts ih =>
      cases parts with
      | nil => simpa using h
      | cons next parts =>
          have hmore := ih fun part hpart => h part (List.mem_cons_of_mem _ hpart)
          rw [List.intercalate_cons_cons]
          simpa [h part List.mem_cons_self, hne] using hmore

theorem length_splitOn (c : Char) (text : List Char) :
    (text.splitOn c).length = text.count c + 1 := by
  induction text with
  | nil => rfl
  | cons d text ih =>
      rw [List.splitOn_cons_eq_if_modifyHead, List.count_cons]
      split
      · rw [List.length_cons, ih]
      · rw [List.length_modifyHead, ih, Nat.add_zero]

/-- The scan takes the parts between the separators, up to the first one that is empty. -/
theorem sscanf_separated (c : Char) (n : Nat) (input : List Char) :
    sscanf (separatedFormat c n) input =
      (((input.splitOn c).take n).takeWhile fun part => part ≠ []).map Value.text := by
  induction n generalizing input with
  | zero => rfl
  | succ n ih =>
      rw [separatedFormat, sscanf]
      by_cases hc : c ∈ input
      · obtain ⟨part, rest, rfl, hpart⟩ := List.eq_append_cons_of_mem hc
        have hinside : ∀ d ∈ part, decide (d ≠ c) = true := fun d hd =>
          decide_eq_true fun h => hpart (h ▸ hd)
        have htake : (part ++ c :: rest).takeWhile (fun d => d ≠ c) = part := by
          rw [List.takeWhile_append_of_pos hinside]
          simp
        have hdrop : (part ++ c :: rest).dropWhile (fun d => d ≠ c) = c :: rest := by
          rw [List.dropWhile_append_of_pos hinside]
          simp
        rw [htake, hdrop, List.splitOn_append_cons_self_of_not_mem hpart, List.take_succ_cons,
          sscanf, if_pos rfl, ih rest]
        by_cases hempty : part = []
        · simp [hempty]
        · simp [hempty]
      · have htake : input.takeWhile (fun d => d ≠ c) = input :=
          List.takeWhile_eq_self_iff.mpr fun d hd => decide_eq_true fun h => hc (h ▸ hd)
        have hdrop : input.dropWhile (fun d => d ≠ c) = [] :=
          List.dropWhile_eq_nil_iff.mpr fun d hd => decide_eq_true fun h => hc (h ▸ hd)
        rw [htake, hdrop, List.splitOn_eq_singleton hc, sscanf]
        by_cases hempty : input = []
        · simp [hempty]
        · simp [hempty]

end Stdio
