import LinuxTraining.Speedtest.ServerUrl

/-!
The arrays that are filled from a server's url without a length limit, and the
urls for which they are large enough.
-/
namespace LinuxTraining.Speedtest
open CString

def maxSize : Nat := 256

structure Buffer where
  capacity : Nat
  content : Text

/-- There is room for the text and its terminator. -/
def Buffer.Fits (b : Buffer) : Prop := b.content.length < b.capacity

/-- What `get_nearest_server` can store: `%255[^\"]` of a line. -/
def Storable (url : Text) : Prop := url ≠ [] ∧ url.length ≤ 255 ∧ '"' ∉ url ∧ '\x00' ∉ url

/-- `latency_url` and `latency_request_url` of `get_best_server`, `sbuf` of
`get_http_file`, `request_url` of `speedtest_download`, and `dummy` and `request_url`
of `speedtest_upload`. -/
def buffersOf (url : Text) : List Buffer :=
  [⟨maxSize, latencyUrl url⟩,
    ⟨maxSize, latencyRequestUrl (latencyUrl url) (domainName (latencyUrl url))⟩,
    ⟨maxSize, probeRequest url⟩,
    ⟨maxSize, downloadRequestUrl url⟩,
    ⟨128, (hostAndPath url).1⟩,
    ⟨128, uploadRequestUrl url⟩]

def latencyLength (token : Text) : Nat :=
  (if mentions "upload." token then 11 else token.length + 1) +
    if mentions "http:" token then 1 else 0

def downloadLength (token : Text) : Nat :=
  if mentions "upload." token then 19 else token.length + 1

/-- The offset of the probe's host in `latency_url`: behind the scheme, or inside it when
the host is a part of `http:`. -/
def probeHostOffset (url : Text) : Nat := (strstr "http:".toList (probeHost url)).getD 7

/-- The urls whose texts fit everywhere, by the lengths of their parts. -/
structure UrlFits (url : Text) : Prop where
  latency : ((tokens '/' url).map latencyLength).sum < 256
  probe : ((tokens '/' url).map latencyLength).sum -
    (probeHostOffset url + (probeHost url).length) + (cutPort (probeHost url)).length + 59 < 256
  download : ((tokens '/' (path url)).map downloadLength).sum < 256
  host : (host url).length < 128
  path : (path url).length < 128

theorem latencySegment_length (token : Text) :
    (latencySegment token).length = latencyLength token := by
  unfold latencySegment latencyLength
  by_cases hupload : mentions "upload." token <;> by_cases hhttp : mentions "http:" token <;>
    simp [hupload, hhttp]

theorem downloadSegment_length (token : Text) :
    (downloadSegment token).length = downloadLength token := by
  unfold downloadSegment downloadLength
  by_cases hupload : mentions "upload." token <;> simp [hupload]

theorem latencyUrl_length (url : Text) :
    (latencyUrl url).length = ((tokens '/' url).map latencyLength).sum := by
  simp only [latencyUrl, List.length_flatMap, latencySegment_length]

theorem downloadRequestUrl_length (url : Text) :
    (downloadRequestUrl url).length = ((tokens '/' (path url)).map downloadLength).sum := by
  simp only [downloadRequestUrl, hostAndPath_eq, List.length_flatMap, downloadSegment_length]

theorem getRequest_length (request_url domain_name : Text) :
    (getRequest request_url domain_name).length =
      request_url.length + domain_name.length + 59 := by
  have hsum (a b : Nat) : 5 + a + 17 + b + 37 = a + b + 59 := by omega
  have hget : "GET /".toList.length = 5 := by decide
  have hhost : " HTTP/1.0\r\nHost: ".toList.length = 17 := by decide
  have hagent : "\r\nUser-Agent: status\r\nAccept: */*\r\n\r\n".toList.length = 37 := by decide
  unfold getRequest
  rw [List.length_append, List.length_append, List.length_append, List.length_append, hget,
    hhost, hagent, hsum]

/-- The first occurrence of the probe's host in `latency_url`. -/
theorem strstr_latencyUrl (url : Text) :
    strstr (latencyUrl url) (probeHost url) = some (probeHostOffset url) := by
  by_cases hempty : probeHost url = []
  · have hnil : ∀ t : Text, strstr t [] = some 0 := by
      intro t
      cases t <;> rfl
    rw [probeHostOffset, hempty, hnil, hnil]
    rfl
  · have hplain : ∀ token ∈ tokens '/' url, '/' ∉ token := fun token h => (mem_tokens h).2
    unfold probeHostOffset latencyUrl
    unfold probeHost at hempty ⊢
    cases htokens : tokens '/' url with
    | nil => simp [htokens] at hempty
    | cons first rest =>
        rw [htokens] at hplain
        simp only [htokens] at hempty ⊢
        by_cases hfirst : first = "http:".toList
        · rw [if_pos hfirst] at hempty ⊢
          have hhost := takeWhile_latency fun t ht => hplain t (List.mem_cons_of_mem _ ht)
          have hslash : '/' ∉ probeHostOf rest := by
            intro hmem
            rw [← hhost] at hmem
            simpa using List.mem_takeWhile_imp hmem
          have hfound : strstr (rest.flatMap latencySegment) (probeHostOf rest) = some 0 := by
            refine (strstr_eq_some_iff hempty).mpr ⟨?_, fun j hj => absurd hj (Nat.not_lt_zero j)⟩
            rw [Occurs, List.drop_zero, ← hhost]
            exact List.takeWhile_prefix _
          have hnone : strstr [] (probeHostOf rest) = none := by
            simp [strstr, hempty]
          have hslashes := strstr_append_cons [] (rest.flatMap latencySegment) hempty hslash
          rw [hnone, hfound] at hslashes
          rw [hfirst, List.flatMap_cons, latencySegment_http, scheme_eq, List.append_assoc,
            List.cons_append, strstr_append_cons _ _ hempty hslash, List.singleton_append]
          rw [List.nil_append] at hslashes
          rw [hslashes]
          cases strstr "http:".toList (probeHostOf rest) with
          | none => rfl
          | some k => rfl
        · rw [if_neg hfirst] at hempty
          exact absurd rfl hempty

theorem latencyRequestUrl_length (url : Text) :
    (latencyRequestUrl (latencyUrl url) (domainName (latencyUrl url))).length =
      ((tokens '/' url).map latencyLength).sum -
        (probeHostOffset url + (probeHost url).length) := by
  rw [domainName_latencyUrl, latencyRequestUrl, strstr_latencyUrl, List.length_drop,
    latencyUrl_length]

/-- Every array has room for its text exactly if the parts of the url are short enough. -/
theorem buffers_fit_iff (url : Text) :
    (∀ b ∈ buffersOf url, b.Fits) ↔ UrlFits url := by
  have hrequest := latencyRequestUrl_length url
  have hprobe : (probeRequest url).length = ((tokens '/' url).map latencyLength).sum -
      (probeHostOffset url + (probeHost url).length) + (cutPort (probeHost url)).length + 59 := by
    rw [probeRequest, getRequest_length, hrequest, domainName_latencyUrl]
  simp only [buffersOf, List.forall_mem_cons, List.not_mem_nil, false_implies, implies_true,
    and_true, Buffer.Fits, maxSize, latencyUrl_length, hrequest, hprobe,
    downloadRequestUrl_length, uploadRequestUrl, hostAndPath_eq]
  constructor
  · rintro ⟨hlatency, _, hprobe, hdownload, hhost, hpath⟩
    exact ⟨hlatency, hprobe, hdownload, hhost, hpath⟩
  · rintro ⟨hlatency, hprobe, hdownload, hhost, hpath⟩
    exact ⟨hlatency, by omega, hprobe, hdownload, hhost, hpath⟩

/-- A directory of 120 characters: `request_url` of `speedtest_upload` has no room for it. -/
theorem long_path_overflows :
    ∃ url, Storable url ∧ ¬ ∀ b ∈ buffersOf url, b.Fits := by
  refine ⟨"http://example.com/".toList ++ List.replicate 120 'a' ++ "/upload.php".toList, ?_, ?_⟩
  · unfold Storable
    decide +kernel
  · intro hfits
    have hpath := hfits ⟨128, _⟩ (by
      simp only [buffersOf, List.mem_cons]
      exact .inr (.inr (.inr (.inr (.inr (.inl rfl))))))
    revert hpath
    unfold Buffer.Fits
    decide +kernel

end LinuxTraining.Speedtest
