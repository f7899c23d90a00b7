import LinuxTraining.Speedtest.Buffers
import LinuxTraining.Speedtest.RequestPath

/-!
The directory that the latency probe and the download ask for. What the probe keeps of the
url begins with the slash behind the host, and the format of the request adds another one.
-/
namespace LinuxTraining.Speedtest
open CString Stdio

def IsSegment (t : Text) : Prop := t ≠ [] ∧ '/' ∉ t

instance (t : Text) : Decidable (IsSegment t) := inferInstanceAs (Decidable (t ≠ [] ∧ '/' ∉ t))

/-- A url `http://H/d1/.../dk/F` of a server. -/
structure UploadUrl where
  host : Text
  dirs : List Text
  file : Text
  host_segment : IsSegment host
  dirs_segment : ∀ dir ∈ dirs, IsSegment dir
  file_segment : IsSegment file
  file_upload : mentions "upload." file = true

namespace UploadUrl

def dirsText (u : UploadUrl) : Text := u.dirs.flatMap (· ++ ['/'])

def text (u : UploadUrl) : Text := scheme ++ (u.host ++ '/' :: (u.dirsText ++ u.file))

/-- The path of another file in the directory of the url. -/
def sibling (u : UploadUrl) (name : String) : Text := '/' :: (u.dirsText ++ name.toList)

end UploadUrl

/-- What the request line of `GET /%s HTTP/1.0` asks for. -/
def askedFor (request_url : Text) : Text := '/' :: request_url

theorem getRequest_asks (request_url domain_name : Text) :
    getRequest request_url domain_name = "GET ".toList ++ askedFor request_url ++
      (" HTTP/1.0\r\nHost: ".toList ++ domain_name ++
        "\r\nUser-Agent: status\r\nAccept: */*\r\n\r\n".toList) := by
  have hassoc : ∀ get get' line agent : Text, get = get' ++ ['/'] →
      get ++ request_url ++ line ++ domain_name ++ agent =
        get' ++ '/' :: request_url ++ (line ++ domain_name ++ agent) := by
    rintro get get' line agent rfl
    simp
  exact hassoc _ _ _ _ (by decide)

/-- The path of the probe's request before it is formatted. -/
def probeRequestUrl (url : Text) : Text :=
  latencyRequestUrl (latencyUrl url) (domainName (latencyUrl url))

/-- Both requests go to the host of the url and ask for a file in its directory. -/
structure SameDirectory (u : UploadUrl) : Prop where
  host : domainName (latencyUrl u.text) = u.host
  probe : askedFor (probeRequestUrl u.text) = u.sibling "latency.txt"
  download : askedFor (downloadRequestUrl u.text) = u.sibling "random3500x3500.jpg"

variable {u : UploadUrl}

theorem dirsText_splitOn {dirs : List Text} (h : ∀ dir ∈ dirs, IsSegment dir) (rest : Text) :
    (dirs.flatMap (· ++ ['/']) ++ rest).splitOn '/' = dirs ++ rest.splitOn '/' := by
  induction dirs with
  | nil => rfl
  | cons dir dirs ih =>
      have hmore := ih fun d hd => h d (List.mem_cons_of_mem _ hd)
      rw [List.flatMap_cons, List.append_assoc, List.append_assoc, List.singleton_append,
        List.splitOn_append_cons_self_of_not_mem (h dir List.mem_cons_self).2, hmore]
      rfl

theorem sibling_segments (u : UploadUrl) {name : Text} (hname : IsSegment name) :
    [] ∉ (u.dirsText ++ name).splitOn '/' := by
  rw [UploadUrl.dirsText, dirsText_splitOn u.dirs_segment, List.splitOn_eq_singleton hname.2,
    List.mem_append, List.mem_singleton]
  rintro (hdir | hempty)
  · exact (u.dirs_segment [] hdir).1 rfl
  · exact hname.1 hempty.symm

theorem splitOn_slash (t : Text) : ('/' :: t).splitOn '/' = [] :: t.splitOn '/' := by
  rw [List.splitOn_cons_eq_if_modifyHead]
  rfl

theorem tokens_slash (t : Text) : tokens '/' ('/' :: t) = tokens '/' t := by
  simp [tokens, splitOn_slash]

theorem tokens_path (u : UploadUrl) : tokens '/' (u.dirsText ++ u.file) = u.dirs ++ [u.file] := by
  rw [tokens, UploadUrl.dirsText, dirsText_splitOn u.dirs_segment,
    List.splitOn_eq_singleton u.file_segment.2, List.filter_eq_self]
  intro part hpart
  cases List.mem_append.mp hpart with
  | inl hdir => exact decide_eq_true (u.dirs_segment part hdir).1
  | inr hlast => exact decide_eq_true (List.mem_singleton.mp hlast ▸ u.file_segment.1)

theorem tokens_text (u : UploadUrl) :
    tokens '/' u.text = "http:".toList :: u.host :: (u.dirs ++ [u.file]) := by
  rw [UploadUrl.text, scheme_eq, List.append_assoc, List.cons_append, List.singleton_append,
    tokens_word_delim _ (by decide) (by decide), tokens_slash,
    tokens_word_delim _ u.host_segment.1 u.host_segment.2, tokens_path]

theorem latencyUrl_text (u : UploadUrl) :
    latencyUrl u.text = scheme ++ (u.host :: (u.dirs ++ [u.file])).flatMap latencySegment := by
  rw [latencyUrl, tokens_text, List.flatMap_cons, latencySegment_http]

theorem probeHostOf_ne_nil {token : Text} (hne : token ≠ []) (rest : List Text) :
    probeHostOf (token :: rest) ≠ [] := by
  rw [probeHostOf]
  split
  · exact List.append_ne_nil_of_left_ne_nil (by decide) _
  · exact hne

/-- The text behind the first slash of a text, and that slash. -/
theorem empty_segment_behind (text : Text) :
    [] ∈ (text.dropWhile fun c => c ≠ '/').splitOn '/' := by
  cases hdrop : text.dropWhile fun c => c ≠ '/' with
  | nil => exact List.mem_singleton_self []
  | cons c rest =>
      have hc : c = '/' := by
        have hhead := List.head_dropWhile_not (p := fun c => decide (c ≠ '/')) (l := text)
          (by rw [hdrop]; exact List.cons_ne_nil _ _)
        simp only [hdrop, List.head_cons] at hhead
        simpa using hhead
      rw [hc, splitOn_slash]
      exact List.mem_cons_self

/-- What is left behind the host is nothing, or begins with a slash, or has the two slashes
of the scheme in it. -/
theorem probeRequestUrl_segments (u : UploadUrl) :
    [] ∈ (probeRequestUrl u.text).splitOn '/' := by
  have hplain : ∀ token ∈ u.host :: (u.dirs ++ [u.file]), '/' ∉ token := fun token htoken =>
    (mem_tokens (tokens_text u ▸ List.mem_cons_of_mem _ htoken)).2
  have hlatency := latencyUrl_text u
  have hhost := takeWhile_latency hplain
  have hprobe : probeHost u.text = probeHostOf (u.host :: (u.dirs ++ [u.file])) := by
    rw [probeHost, tokens_text]
    exact if_pos rfl
  have hne : probeHost u.text ≠ [] := hprobe ▸ probeHostOf_ne_nil u.host_segment.1 _
  generalize (u.host :: (u.dirs ++ [u.file])).flatMap latencySegment = rest at hlatency hhost
  rw [probeRequestUrl, domainName_latencyUrl, latencyRequestUrl, strstr_latencyUrl, hlatency]
  rw [← hprobe] at hhost
  simp only [probeHostOffset]
  cases hinside : strstr "http:".toList (probeHost u.text) with
  | some k =>
      -- the host is found in the scheme, so the slashes of the scheme are left
      have hle : k + (probeHost u.text).length ≤ "http:".toList.length :=
        (strstr_some hinside).1.le hne
      rw [Option.getD_some, scheme_eq, List.append_assoc, List.drop_append_of_le_length hle,
        List.cons_append, List.singleton_append, List.splitOn_append_cons_self, splitOn_slash]
      exact List.mem_append_right _ List.mem_cons_self
  | none =>
      have hdrop : rest.drop (probeHost u.text).length = rest.dropWhile fun c => c ≠ '/' := by
        rw [← hhost]
        nth_rewrite 2 [← @List.takeWhile_append_dropWhile _ (fun c => decide (c ≠ '/')) rest]
        exact List.drop_left
      have hscheme : scheme.length = 7 := by decide
      rw [Option.getD_none, ← hscheme, List.drop_length_add_append, hdrop]
      exact empty_segment_behind rest

/-- Nothing in the url is taken for `upload.` or `http:`, and its path is one word. -/
structure PlainUrl (u : UploadUrl) : Prop where
  upload : ∀ token ∈ u.host :: u.dirs, mentions "upload." token = false
  http : ∀ token ∈ u.host :: (u.dirs ++ [u.file]), mentions "http:" token = false
  outside : strstr "http:".toList u.host = none
  visible : ∀ c ∈ u.dirsText ++ u.file, isSpace c = false

theorem flatMap_plain {segment : Text → Text} {dirs : List Text}
    (h : ∀ dir ∈ dirs, segment dir = dir ++ ['/']) (file : Text) :
    (dirs ++ [file]).flatMap segment = dirs.flatMap (· ++ ['/']) ++ segment file := by
  rw [List.flatMap_append, List.flatMap_singleton]
  congr 1
  exact List.flatMap_congr h

theorem PlainUrl.latencyUrl (h : PlainUrl u) :
    latencyUrl u.text = scheme ++ (u.host ++ u.sibling "latency.txt") := by
  have hsegment : ∀ token ∈ u.host :: u.dirs, latencySegment token = token ++ ['/'] := by
    intro token htoken
    have hhttp := h.http token (by
      cases List.mem_cons.mp htoken with
      | inl hhost => exact hhost ▸ List.mem_cons_self
      | inr hdir => exact List.mem_cons_of_mem _ (List.mem_append_left _ hdir))
    rw [latencySegment, h.upload token htoken, hhttp]
    exact List.append_nil _
  have hfile : latencySegment u.file = "latency.txt".toList := by
    rw [latencySegment, u.file_upload, h.http u.file (by simp)]
    exact List.append_nil _
  rw [latencyUrl_text, ← List.cons_append, flatMap_plain hsegment, hfile, List.flatMap_cons]
  simp [UploadUrl.sibling, UploadUrl.dirsText]

theorem PlainUrl.domainName (h : PlainUrl u) :
    domainName (Speedtest.latencyUrl u.text) = u.host := by
  rw [domainName_latencyUrl, probeHost, tokens_text]
  simp only [if_true, probeHostOf, h.upload u.host List.mem_cons_self, Bool.false_eq_true, if_false]

/-- The probe keeps the path with its slash. -/
theorem PlainUrl.probeRequestUrl (h : PlainUrl u) :
    probeRequestUrl u.text = u.sibling "latency.txt" := by
  have hhost : probeHost u.text = u.host := by
    rw [← domainName_latencyUrl, h.domainName]
  have hscheme : scheme.length = 7 := by decide
  rw [Speedtest.probeRequestUrl, h.domainName, latencyRequestUrl, ← hhost, strstr_latencyUrl,
    probeHostOffset, hhost, h.outside, Option.getD_none, h.latencyUrl, ← hscheme]
  simp only [List.drop_length_add_append, List.drop_left]

theorem PlainUrl.path (h : PlainUrl u) : path u.text = u.dirsText ++ u.file := by
  have hafter : afterScheme u.text = some (u.host ++ '/' :: (u.dirsText ++ u.file)) := by
    rw [afterScheme, UploadUrl.text, if_pos (List.prefix_append _ _), List.drop_left]
  have hhost : host u.text = u.host := by
    rw [host, hafter, Option.getD_some, takeWhile_before u.host_segment.2]
  have hdrop : (u.host ++ '/' :: (u.dirsText ++ u.file)).dropWhile (fun c => c ≠ '/') =
      '/' :: (u.dirsText ++ u.file) := by
    have hinside : ∀ c ∈ u.host, decide (c ≠ '/') = true := fun c hc =>
      decide_eq_true fun heq => u.host_segment.2 (heq ▸ hc)
    rw [List.dropWhile_append_of_pos hinside]
    simp
  have hword : ((u.dirsText ++ u.file).dropWhile isSpace).takeWhile (fun c => !isSpace c) =
      u.dirsText ++ u.file := by
    have hall : (u.dirsText ++ u.file).dropWhile isSpace = u.dirsText ++ u.file := by
      cases hpath : u.dirsText ++ u.file with
      | nil => rfl
      | cons c rest =>
          have hc := h.visible c (hpath ▸ List.mem_cons_self)
          rw [List.dropWhile_cons, hc]
          rfl
    rw [hall]
    exact List.takeWhile_eq_self_iff.mpr fun c hc => by rw [h.visible c hc]; rfl
  rw [Speedtest.path, hhost, if_neg u.host_segment.1, hafter, Option.getD_some, hdrop]
  exact hword

theorem PlainUrl.downloadRequestUrl (h : PlainUrl u) :
    askedFor (downloadRequestUrl u.text) = u.sibling "random3500x3500.jpg" := by
  have hsegment : ∀ dir ∈ u.dirs, downloadSegment dir = dir ++ ['/'] := by
    intro dir hdir
    rw [downloadSegment, h.upload dir (List.mem_cons_of_mem _ hdir)]
    rfl
  have hfile : downloadSegment u.file = "random3500x3500.jpg".toList := by
    rw [downloadSegment, u.file_upload]
    rfl
  rw [Speedtest.downloadRequestUrl, hostAndPath_eq, h.path, tokens_path,
    flatMap_plain hsegment, hfile]
  rfl

/-- No probe asks for the file in the directory of the url: its path has one slash too many.
A plain url is right up to that slash. -/
theorem no_probe_in_directory (u : UploadUrl) :
    ¬ SameDirectory u ∧
      (PlainUrl u → domainName (latencyUrl u.text) = u.host ∧
        askedFor (probeRequestUrl u.text) = '/' :: u.sibling "latency.txt" ∧
        askedFor (downloadRequestUrl u.text) = u.sibling "random3500x3500.jpg") := by
  refine ⟨fun h => ?_, fun h => ⟨h.domainName, ?_, h.downloadRequestUrl⟩⟩
  · have hsame : probeRequestUrl u.text = u.dirsText ++ "latency.txt".toList :=
      (List.cons.inj h.probe).2
    have hempty := probeRequestUrl_segments u
    rw [hsame] at hempty
    exact sibling_segments u ⟨by decide, by decide⟩ hempty
  · rw [askedFor, h.probeRequestUrl]

def vadso : UploadUrl where
  host := "88.84.191.230".toList
  dirs := ["speedtest".toList]
  file := "upload.php".toList
  host_segment := by decide
  dirs_segment := by decide
  file_segment := by decide
  file_upload := by decide

theorem no_probe_in_directory_vadso :
    PlainUrl vadso ∧ askedFor (probeRequestUrl vadso.text) = "//speedtest/latency.txt".toList := by
  have hvisible : ((vadso.dirsText ++ vadso.file).all fun c => !isSpace c) = true := by decide
  have hplain : PlainUrl vadso :=
    ⟨by decide, by decide, by decide, fun c hc => by simpa using List.all_eq_true.mp hvisible c hc⟩
  exact ⟨hplain, ((no_probe_in_directory vadso).2 hplain).2.1⟩

/-- The url that the comment in `get_nearest_server` gives as an example. -/
theorem vadso_probe_elsewhere :
    vadso.text = "http://88.84.191.230/speedtest/upload.php".toList ∧
    "GET //speedtest/latency.txt HTTP/1.0\r\n".toList <+: probeRequest vadso.text ∧
    ¬ SameDirectory vadso := by
  refine ⟨by decide, by decide +kernel, fun h => ?_⟩
  have hprobe := h.probe
  revert hprobe
  decide +kernel

end LinuxTraining.Speedtest
