import LinuxTraining.Library.CString
import LinuxTraining.Library.Stdio

/-!
What the program makes of the url of a server: the latency probe of
`get_best_server` and the request paths of `speedtest_download` and
`speedtest_upload`. Texts have no bound here; the arrays that hold them are in
`Buffers`.
-/
namespace LinuxTraining.Speedtest
open CString Stdio

abbrev Text := List Char

def mentions (name : String) (buf : Text) : Bool := (strstr buf name.toList).isSome

def scheme : Text := "http://".toList

def hostFormat : List Directive := scheme.map .literal ++ [.before '/']

def hostPathFormat : List Directive :=
  scheme.map .literal ++ [.before '/', .literal '/', .word]

/-- What one token of the url adds to `latency_url`. -/
def latencySegment (buf : Text) : Text :=
  (if mentions "upload." buf then "latency.txt".toList else buf ++ ['/']) ++
    if mentions "http:" buf then ['/'] else []

def latencyUrl (url : Text) : Text := (tokens '/' url).flatMap latencySegment

/-- `domain_name` is empty before the scan. -/
def domainName (latency_url : Text) : Text :=
  match sscanf hostFormat latency_url with
  | [.text domain_name] => domain_name
  | _ => []

def latencyRequestUrl (latency_url domain_name : Text) : Text :=
  match strstr latency_url domain_name with
  | some k => latency_url.drop (k + domain_name.length)
  | none => []

/-- `get_ipv4_addr` cuts the port off the name it is given. -/
def cutPort (domain_name : Text) : Text := domain_name.takeWhile fun c => c ≠ ':'

/-- The request that `get_http_file` and `download_thread` send. -/
def getRequest (request_url domain_name : Text) : Text :=
  "GET /".toList ++ request_url ++ " HTTP/1.0\r\nHost: ".toList ++ domain_name ++
    "\r\nUser-Agent: status\r\nAccept: */*\r\n\r\n".toList

/-- The request of the latency probe; the port is cut before it is sent. -/
def probeRequest (url : Text) : Text :=
  getRequest (latencyRequestUrl (latencyUrl url) (domainName (latencyUrl url)))
    (cutPort (domainName (latencyUrl url)))

/-- `dummy` and `request_url` after the scan of the url. -/
def hostAndPath (url : Text) : Text × Text :=
  match sscanf hostPathFormat url with
  | [.text dummy, .text request_url] => (dummy, request_url)
  | [.text dummy] => (dummy, [])
  | _ => ([], [])

/-- What one token of the path adds to `request_url`. -/
def downloadSegment (buf : Text) : Text :=
  if mentions "upload." buf then "random3500x3500.jpg".toList else buf ++ ['/']

def downloadRequestUrl (url : Text) : Text :=
  (tokens '/' (hostAndPath url).2).flatMap downloadSegment

def uploadRequestUrl (url : Text) : Text := (hostAndPath url).2

def afterScheme (url : Text) : Option Text :=
  if scheme <+: url then some (url.drop scheme.length) else none

def host (url : Text) : Text :=
  ((afterScheme url).getD []).takeWhile fun c => c ≠ '/'

/-- The text after the host and its slash, from its first visible character up to the
next space. A url without a host has no path. -/
def path (url : Text) : Text :=
  if host url = [] then []
  else
    (((((afterScheme url).getD []).dropWhile fun c => c ≠ '/').drop 1).dropWhile
      isSpace).takeWhile fun c => !isSpace c

theorem hostAndPath_eq (url : Text) : hostAndPath url = (host url, path url) := by
  unfold hostAndPath
  by_cases hscheme : scheme <+: url
  · obtain ⟨rest, rfl⟩ := hscheme
    have hafter : afterScheme (scheme ++ rest) = some rest := by
      simp [afterScheme]
    rw [hostPathFormat, sscanf_word]
    simp only [path, host, hafter, Option.getD_some]
    by_cases hhost : rest.takeWhile (fun c => c ≠ '/') = []
    · simp only [sscanf, hhost, if_true]
    · simp only [sscanf, hhost, if_false]
      cases hrest : rest.dropWhile (fun c => c ≠ '/') with
      | nil => simp [sscanf]
      | cons c text =>
          have hc : c = '/' := by
            have hhead := List.head_dropWhile_not (p := fun c => decide (c ≠ '/')) (l := rest)
              (by rw [hrest]; exact List.cons_ne_nil _ _)
            simp only [hrest, List.head_cons] at hhead
            simpa using hhead
          simp only [sscanf, hc, if_true, List.drop_succ_cons, List.drop_zero]
          by_cases hword : (text.dropWhile isSpace).takeWhile (fun c => !isSpace c) = []
          · simp only [hword, if_true]
          · simp only [hword, if_false]
  · rw [hostPathFormat, sscanf_mismatch _ hscheme]
    simp [path, host, afterScheme, hscheme]

/-- The host that the latency probe finds in the tokens of a url: a token that mentions
`upload.` is replaced by a file name without the slash that ends a host. -/
def probeHostOf : List Text → Text
  | [] => []
  | token :: rest =>
      if mentions "upload." token then
        "latency.txt".toList ++ if mentions "http:" token then [] else probeHostOf rest
      else token

def probeHost (url : Text) : Text :=
  match tokens '/' url with
  | [] => []
  | first :: rest => if first = "http:".toList then probeHostOf rest else []

theorem latencyName_plain : '/' ∉ "latency.txt".toList := by decide

theorem takeWhile_before {t rest : Text} (h : '/' ∉ t) :
    (t ++ '/' :: rest).takeWhile (fun c => c ≠ '/') = t := by
  have hall : ∀ c ∈ t, decide (c ≠ '/') = true := by
    intro c hc
    simpa using fun heq : c = '/' => h (heq ▸ hc)
  rw [List.takeWhile_append_of_pos hall]
  simp

/-- The host ends at the first slash that the rewriting wrote. -/
theorem takeWhile_latency {parts : List Text} (h : ∀ token ∈ parts, '/' ∉ token) :
    (parts.flatMap latencySegment).takeWhile (fun c => c ≠ '/') = probeHostOf parts := by
  induction parts with
  | nil => rfl
  | cons token parts ih =>
      have htail := ih fun t ht => h t (List.mem_cons_of_mem _ ht)
      rw [List.flatMap_cons, latencySegment, probeHostOf]
      by_cases hupload : mentions "upload." token
      · have hall : ∀ c ∈ "latency.txt".toList, decide (c ≠ '/') = true := by simp
        by_cases hhttp : mentions "http:" token
        · simp only [hupload, hhttp, if_true, List.append_nil]
          rw [List.append_assoc]
          exact takeWhile_before latencyName_plain
        · simp only [hupload, hhttp, if_true, List.append_nil, Bool.false_eq_true, if_false]
          rw [List.takeWhile_append_of_pos hall, htail]
      · simp only [hupload, Bool.false_eq_true, if_false]
        rw [List.append_assoc, List.append_assoc]
        exact takeWhile_before (h token List.mem_cons_self)

theorem scheme_eq : scheme = "http:".toList ++ '/' :: ['/'] := by decide

theorem latencySegment_http : latencySegment "http:".toList = scheme := by decide

theorem scheme_prefix_latency {first : Text} {rest : List Text}
    (h : ∀ token ∈ first :: rest, '/' ∉ token) :
    scheme <+: (first :: rest).flatMap latencySegment ↔ first = "http:".toList := by
  constructor
  · rintro ⟨after, hafter⟩
    have hhost := takeWhile_latency h
    rw [← hafter, scheme_eq, List.append_assoc, List.cons_append,
      takeWhile_before (by decide), probeHostOf] at hhost
    by_cases hupload : mentions "upload." first
    · rw [if_pos hupload] at hhost
      have hhead := congrArg List.head? hhost
      rw [List.head?_append_of_ne_nil _ (by decide)] at hhead
      exact absurd hhead (by decide)
    · rw [if_neg hupload] at hhost
      exact hhost.symm
  · rintro rfl
    rw [List.flatMap_cons, latencySegment_http]
    exact List.prefix_append _ _

/-- The host of the probe, as the tokens of the url give it. -/
theorem domainName_latencyUrl (url : Text) : domainName (latencyUrl url) = probeHost url := by
  have hplain : ∀ token ∈ tokens '/' url, '/' ∉ token := fun token h => (mem_tokens h).2
  unfold domainName probeHost latencyUrl
  cases htokens : tokens '/' url with
  | nil =>
      rw [hostFormat, List.flatMap_nil, sscanf_mismatch _ (by decide)]
  | cons first rest =>
      rw [htokens] at hplain
      by_cases hfirst : first = "http:".toList
      · have hhost := takeWhile_latency fun t ht => hplain t (List.mem_cons_of_mem _ ht)
        rw [hfirst, List.flatMap_cons, latencySegment_http, hostFormat, sscanf_word]
        simp only [sscanf, hhost, if_true]
        by_cases hempty : probeHostOf rest = []
        · simp only [hempty, if_true]
        · simp only [hempty, if_false]
      · rw [hostFormat, sscanf_mismatch _ fun h => hfirst ((scheme_prefix_latency hplain).mp h)]
        simp only [hfirst, if_false]

end LinuxTraining.Speedtest
