import LinuxTraining.Speedtest.ServerUrl

/-!
The directory of a request. `speedtest_download` puts a file name in the place
of every part of the path that mentions `upload.`, and writes no slash after it;
so the directory is kept only if nothing but the last part does.
-/
namespace LinuxTraining.Speedtest
open CString

def directory (p : Text) : List Text := (tokens '/' p).dropLast

theorem downloadSegment_head {token : Text} (hne : token ≠ []) (hslash : '/' ∉ token) :
    ∃ c rest, downloadSegment token = c :: rest ∧ c ≠ '/' := by
  unfold downloadSegment
  split
  · exact ⟨'r', "andom3500x3500.jpg".toList, by decide, by decide⟩
  · cases token with
    | nil => exact absurd rfl hne
    | cons c rest =>
        exact ⟨c, rest ++ ['/'], rfl, fun hc => hslash (hc ▸ List.mem_cons_self)⟩

/-- A token without `upload.` stays a token. -/
theorem tokens_downloadSegment {token : Text} (rest : Text) (hne : token ≠ [])
    (hslash : '/' ∉ token) (hplain : mentions "upload." token = false) :
    tokens '/' (downloadSegment token ++ rest) = token :: tokens '/' rest := by
  rw [downloadSegment, hplain]
  simpa using tokens_word_delim rest hne hslash

theorem tokens_last {token : Text} (hne : token ≠ []) (hslash : '/' ∉ token) :
    (tokens '/' (downloadSegment token)).length = 1 := by
  cases hmentions : mentions "upload." token with
  | true =>
      rw [downloadSegment, hmentions, if_pos rfl]
      decide
  | false =>
      have htokens := tokens_downloadSegment [] hne hslash hmentions
      rw [List.append_nil] at htokens
      rw [htokens, tokens_nil, List.length_singleton]

/-- Each replaced part in front of another one costs a token. -/
theorem tokens_rewritten_length {parts : List Text}
    (h : ∀ token ∈ parts, token ≠ [] ∧ '/' ∉ token) :
    (tokens '/' (parts.flatMap downloadSegment)).length +
      parts.dropLast.countP (mentions "upload.") = parts.length := by
  induction parts with
  | nil => simp [tokens_nil]
  | cons token parts ih =>
      obtain ⟨hne, hslash⟩ := h token List.mem_cons_self
      cases parts with
      | nil => simp [tokens_last hne hslash]
      | cons next parts =>
          have htail := ih fun t ht => h t (List.mem_cons_of_mem _ ht)
          rw [List.flatMap_cons, List.dropLast_cons_cons, List.countP_cons, List.length_cons]
          cases hmentions : mentions "upload." token with
          | true =>
              obtain ⟨hne', hslash'⟩ := h next (by simp)
              obtain ⟨c, rest, hhead, hc⟩ := downloadSegment_head hne' hslash'
              rw [List.flatMap_cons, hhead, List.cons_append] at htail ⊢
              rw [downloadSegment, hmentions, if_pos rfl,
                tokens_word_append (by decide) (by decide) hc, List.length_modifyHead]
              simp only [if_true]
              omega
          | false =>
              rw [tokens_downloadSegment _ hne hslash hmentions, List.length_cons]
              simp only [Bool.false_eq_true, if_false]
              omega

theorem directory_rewritten {parts : List Text}
    (h : ∀ token ∈ parts, token ≠ [] ∧ '/' ∉ token)
    (hplain : ∀ token ∈ parts.dropLast, mentions "upload." token = false) :
    directory (parts.flatMap downloadSegment) = parts.dropLast := by
  induction parts with
  | nil => simp [directory, tokens_nil]
  | cons token parts ih =>
      obtain ⟨hne, hslash⟩ := h token List.mem_cons_self
      have hvalid : ∀ t ∈ parts, t ≠ [] ∧ '/' ∉ t := fun t ht =>
        h t (List.mem_cons_of_mem _ ht)
      cases parts with
      | nil =>
          have hlast := tokens_last hne hslash
          obtain ⟨last, htokens⟩ := List.length_eq_one_iff.mp hlast
          simp [directory, htokens]
      | cons next parts =>
          rw [List.dropLast_cons_cons] at hplain ⊢
          have htail := ih hvalid fun t ht => hplain t (List.mem_cons_of_mem _ ht)
          have hlength := tokens_rewritten_length hvalid
          have hcount : (next :: parts).dropLast.countP (mentions "upload.") = 0 := by
            rw [List.countP_eq_zero]
            intro t ht
            simp [hplain t (List.mem_cons_of_mem _ ht)]
          have htokens : tokens '/' ((next :: parts).flatMap downloadSegment) ≠ [] := by
            intro hnil
            rw [hnil, hcount, List.length_cons] at hlength
            simp at hlength
          rw [directory, List.flatMap_cons,
            tokens_downloadSegment _ hne hslash (hplain token List.mem_cons_self),
            List.dropLast_cons_of_ne_nil htokens]
          rw [directory] at htail
          rw [htail]

/-- The download asks for a file in the directory of the url exactly if no directory on
the path mentions `upload.`. -/
theorem directory_download_iff (url : Text) :
    directory (downloadRequestUrl url) = directory (path url) ↔
      ∀ token ∈ directory (path url), mentions "upload." token = false := by
  have hvalid : ∀ token ∈ tokens '/' (path url), token ≠ [] ∧ '/' ∉ token := fun _ h =>
    mem_tokens h
  unfold downloadRequestUrl
  rw [hostAndPath_eq]
  constructor
  · intro hsame token htoken
    have hlength := tokens_rewritten_length hvalid
    have hsizes := congrArg List.length hsame
    simp only [directory, List.length_dropLast] at hsizes
    have hpos : 0 < (tokens '/' (path url)).dropLast.length := List.length_pos_of_mem htoken
    rw [List.length_dropLast] at hpos
    have hnone : (tokens '/' (path url)).dropLast.countP (mentions "upload.") = 0 := by omega
    simpa using List.countP_eq_zero.mp hnone token htoken
  · exact directory_rewritten hvalid

end LinuxTraining.Speedtest
