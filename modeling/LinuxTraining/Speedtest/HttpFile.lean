import LinuxTraining.Library.CString

/-!
`get_http_file` and `get_https_file` of `speedtest-config.c`: two copies of one
receive loop. The environment answers the calls before the loop and, on each
turn, `select` and the read. A byte of the output file keeps the offset in the
response at which it was received, so that equal bytes at different places are
told apart.
-/
namespace LinuxTraining.Speedtest
open CString

def ulBufferSize : Nat := 8192

inductive Recv where
  | data (bytes : List UInt8)
  | endOfStream
  | error
  deriving DecidableEq

/-- One turn of the loop; `ready` is `status > 0 && FD_ISSET(fd, &fdSet)`. -/
structure Turn where
  ready : Bool
  recv : Recv
  deriving DecidableEq

abbrev File := List (UInt8 × Nat)

/-- A call returns with the file it opened, if any, reaches undefined behaviour, or
waits for the next read. -/
inductive Result where
  | returned (code : Nat) (file : Option File)
  | undefined
  | running
  deriving DecidableEq

def crlfcrlf : List UInt8 := [13, 10, 13, 10]

/-- `rbuf`, cleared on every turn, after a read into it. -/
def rbuf (bytes : List UInt8) : List UInt8 :=
  bytes ++ List.replicate (ulBufferSize - bytes.length) 0

/-- What the loop passes to `fwrite`: an offset in `rbuf` and a number of bytes. A
full buffer without a NUL is not a string, so `strstr` runs past its end. -/
def fwriteArgs (bytes : List UInt8) : Option (Nat × Nat) :=
  match text 0 (rbuf bytes) with
  | none => none
  | some string =>
      match strstr string crlfcrlf with
      | some k => some (k + 4, (string.drop (k + 4)).length)
      | none => some (0, bytes.length)

def fwrite (received : Nat) (bytes : List UInt8) (ptr len : Nat) : File :=
  (((rbuf bytes).zipIdx received).drop ptr).take len

def fclose (code : Nat) : Option File → Result
  | none => .undefined
  | some file => .returned code (some file)

/-- The `while (1)` loop; `onError` is the value returned after a failed read. -/
def receiveLoop (onError : Nat) : (file : Option File) → (received : Nat) → List Turn → Result
  | _, _, [] => .running
  | file, received, ⟨true, .data bytes⟩ :: turns =>
      match file, fwriteArgs bytes with
      | some file, some (ptr, len) =>
          receiveLoop onError (some (file ++ fwrite received bytes ptr len))
            (received + bytes.length) turns
      | _, _ => .undefined
  | file, _, ⟨true, .endOfStream⟩ :: _ => fclose 1 file
  | file, _, ⟨true, .error⟩ :: _ => fclose onError file
  | file, received, ⟨false, .data bytes⟩ :: turns =>
      receiveLoop onError file (received + bytes.length) turns
  | file, received, ⟨false, .endOfStream⟩ :: turns => receiveLoop onError file received turns
  | file, received, ⟨false, .error⟩ :: turns => receiveLoop onError file received turns

/-- Which of the calls before the loop of `get_http_file` succeed. -/
structure HttpSetup where
  socket : Bool
  connect : Bool
  send : Bool
  fopen : Bool

def getHttpFile (setup : HttpSetup) (turns : List Turn) : Result :=
  if !setup.socket then .returned 0 none
  else if !setup.connect then .returned 0 none
  else if !setup.send then .returned 0 none
  else if !setup.fopen then .returned 0 none
  else receiveLoop 1 (some []) 0 turns

structure HttpsSetup where
  ctxNew : Bool
  socket : Bool
  connect : Bool
  sslConnect : Bool
  sslWrite : Bool
  fopen : Bool

/-- The result of `fopen` is not checked here. -/
def getHttpsFile (setup : HttpsSetup) (turns : List Turn) : Result :=
  if !setup.ctxNew then .returned 0 none
  else if !setup.socket then .returned 0 none
  else if !setup.connect then .returned 0 none
  else if !setup.sslConnect then .returned 0 none
  else if !setup.sslWrite then .returned 0 none
  else receiveLoop 0 (if setup.fopen then some [] else none) 0 turns

/-- A header block, ended by its first CRLFCRLF. -/
def IsHeader (header : List UInt8) : Prop :=
  4 ≤ header.length ∧ strstr header crlfcrlf = some (header.length - 4)

def Recv.bytes : Recv → List UInt8
  | .data bytes => bytes
  | _ => []

/-- A turn before the end of the stream: every read delivers some bytes that fit
in the buffer, and only a turn that timed out may meet an early end or an error. -/
def Turn.Delivers (turn : Turn) : Prop :=
  match turn.recv with
  | .data bytes => bytes ≠ [] ∧ bytes.length ≤ ulBufferSize
  | _ => turn.ready = false

def Splits (turns : List Turn) (response : List UInt8) : Prop :=
  (∀ turn ∈ turns, turn.Delivers) ∧ turns.flatMap (fun turn => turn.recv.bytes) = response

def endTurn : Turn := ⟨true, .endOfStream⟩

/-- The call returned, and the file holds exactly the bytes of the body, each
received at its own place in the response. -/
def SavesBody (header body : List UInt8) (result : Result) : Prop :=
  ∃ file : File, result = .returned 1 (some file) ∧ file.map Prod.fst = body ∧
    file.map Prod.snd = List.range' header.length body.length

/-- A read after `received` bytes that leaves the file right. After a timeout it
ends inside the header. Otherwise it holds the end of the header with the whole
CRLFCRLF, no NUL byte and room for a terminator; or it starts in the body and its
text is a string without CRLFCRLF. -/
def Harmless (headerLen received : Nat) (turn : Turn) : Prop :=
  match turn.recv with
  | .data bytes =>
      if turn.ready then
        (received + 4 ≤ headerLen ∧ headerLen ≤ received + bytes.length ∧ 0 ∉ bytes ∧
          bytes.length < ulBufferSize) ∨
        (headerLen ≤ received ∧ (0 ∈ bytes ∨ bytes.length < ulBufferSize) ∧
          strstr (bytes.takeWhile fun b => b ≠ 0) crlfcrlf = none)
      else received + bytes.length ≤ headerLen
  | _ => True

def AllHarmless (headerLen : Nat) : (received : Nat) → List Turn → Prop
  | _, [] => True
  | received, turn :: turns =>
      Harmless headerLen received turn ∧
        AllHarmless headerLen (received + turn.recv.bytes.length) turns

def written (received : Nat) (turn : Turn) : Option File :=
  match turn.ready, turn.recv with
  | true, .data bytes => (fwriteArgs bytes).map fun args => fwrite received bytes args.1 args.2
  | _, _ => some []

def writtenAll : (received : Nat) → List Turn → Option File
  | _, [] => some []
  | received, turn :: turns =>
      match written received turn, writtenAll (received + turn.recv.bytes.length) turns with
      | some now, some later => some (now ++ later)
      | _, _ => none

def bodyPart (headerLen received : Nat) (bytes : List UInt8) : File :=
  (bytes.zipIdx received).drop (headerLen - received)

theorem takeWhile_rbuf (bytes : List UInt8) :
    (rbuf bytes).takeWhile (fun b => b ≠ 0) = bytes.takeWhile fun b => b ≠ 0 := by
  unfold rbuf
  rw [List.takeWhile_append]
  split
  · rename_i hall
    rw [(List.takeWhile_prefix _).eq_of_length hall]
    cases ulBufferSize - bytes.length <;> simp [List.replicate_succ]
  · rfl

theorem text_rbuf (bytes : List UInt8) :
    text 0 (rbuf bytes) =
      if 0 ∈ bytes ∨ bytes.length < ulBufferSize then
        some (bytes.takeWhile fun b => b ≠ 0)
      else none := by
  have hmem : 0 ∈ rbuf bytes ↔ 0 ∈ bytes ∨ bytes.length < ulBufferSize := by
    simp only [rbuf, List.mem_append, List.mem_replicate, and_true, Nat.sub_ne_zero_iff_lt]
  simp only [text, hmem, takeWhile_rbuf]

/-- The arguments of `fwrite` by cases: a header end was found, none was found, or
the buffer is no string. -/
theorem fwriteArgs_cases (bytes : List UInt8) :
    let string := bytes.takeWhile fun b => b ≠ 0
    (¬ (0 ∈ bytes ∨ bytes.length < ulBufferSize) ∧ fwriteArgs bytes = none) ∨
    ((0 ∈ bytes ∨ bytes.length < ulBufferSize) ∧
      ((strstr string crlfcrlf = none ∧ fwriteArgs bytes = some (0, bytes.length)) ∨
      ∃ k, strstr string crlfcrlf = some k ∧
        fwriteArgs bytes = some (k + 4, string.length - (k + 4)))) := by
  intro string
  by_cases hstring : 0 ∈ bytes ∨ bytes.length < ulBufferSize
  · refine Or.inr ⟨hstring, ?_⟩
    have htext : text 0 (rbuf bytes) = some string := by rw [text_rbuf, if_pos hstring]
    cases hfind : strstr string crlfcrlf with
    | none => exact Or.inl ⟨rfl, by simp only [fwriteArgs, htext, hfind]⟩
    | some k =>
        exact Or.inr ⟨k, rfl, by simp only [fwriteArgs, htext, hfind, List.length_drop]⟩
  · refine Or.inl ⟨hstring, ?_⟩
    simp only [fwriteArgs, text_rbuf, hstring, if_false]

/-- `fwrite` inside the bytes received reads none of the cleared rest of `rbuf`. -/
theorem fwrite_eq {bytes : List UInt8} {ptr len : Nat} (received : Nat)
    (h : ptr + len ≤ bytes.length) :
    fwrite received bytes ptr len = ((bytes.zipIdx received).drop ptr).take len := by
  rw [fwrite, rbuf, List.zipIdx_append, List.drop_append_of_le_length
    (by rw [List.length_zipIdx]; omega), List.take_append_of_le_length (by
    rw [List.length_drop, List.length_zipIdx]; omega)]

theorem bodyPart_length (headerLen received : Nat) (bytes : List UInt8) :
    (bodyPart headerLen received bytes).length = bytes.length - (headerLen - received) := by
  rw [bodyPart, List.length_drop, List.length_zipIdx]

theorem bodyPart_append (headerLen received : Nat) (bytes rest : List UInt8) :
    bodyPart headerLen received (bytes ++ rest) =
      bodyPart headerLen received bytes ++
        bodyPart headerLen (received + bytes.length) rest := by
  rw [bodyPart, bodyPart, bodyPart, List.zipIdx_append, List.drop_append, List.length_zipIdx]
  congr 2
  omega

/-- The end of the header is the only CRLFCRLF that can be found before the body. -/
theorem found_after_header {header body before bytes after : List UInt8} {k : Nat}
    (hheader : IsHeader header) (hsplit : before ++ bytes ++ after = header ++ body)
    (hfound : strstr (bytes.takeWhile fun b => b ≠ 0) crlfcrlf = some k) :
    header.length ≤ before.length + k + 4 := by
  obtain ⟨hocc, _⟩ := strstr_some hfound
  have hfits := hocc.le (by decide)
  have hstarts := List.takeWhile_prefix (l := bytes) fun b => decide (b ≠ 0)
  obtain ⟨tail, htail⟩ := hstarts
  have hstream := (occurs_append (k := k) before (tail ++ after) hfits).mpr hocc
  rw [← List.append_assoc, List.append_assoc before, htail, hsplit] at hstream
  by_contra hlt
  have hlen : crlfcrlf.length = 4 := rfl
  have hinHeader : Occurs header crlfcrlf (before.length + k) :=
    (occurs_append [] body (by omega)).mp (by simpa using hstream)
  exact (strstr_some hheader.2).2 _ (by omega) hinHeader

/-- A chunk without NUL that holds the whole end of the header has it found there. -/
theorem header_end_found {header body before bytes after : List UInt8}
    (hheader : IsHeader header) (hsplit : before ++ bytes ++ after = header ++ body)
    (hstart : before.length + 4 ≤ header.length)
    (hend : header.length ≤ before.length + bytes.length) (hnul : 0 ∉ bytes) :
    strstr (bytes.takeWhile fun b => b ≠ 0) crlfcrlf =
      some (header.length - 4 - before.length) := by
  have hall : bytes.takeWhile (fun b => b ≠ 0) = bytes := by
    rw [List.takeWhile_eq_self_iff]
    intro b hb
    simpa using fun h : b = 0 => hnul (h ▸ hb)
  obtain ⟨hocc, _⟩ := strstr_some hheader.2
  have hlen : crlfcrlf.length = 4 := rfl
  have hstream := (occurs_append (k := header.length - 4) [] body
    (by rw [hlen]; exact Nat.sub_add_cancel hheader.1 ▸ Nat.le_refl _)).mpr hocc
  have hsame : header.length - 4 = before.length + (header.length - 4 - before.length) := by
    omega
  rw [List.nil_append, ← hsplit, List.length_nil, Nat.zero_add, hsame] at hstream
  have hchunk := (occurs_append before after (by rw [hlen]; omega)).mp hstream
  cases hfind : strstr (bytes.takeWhile fun b => b ≠ 0) crlfcrlf with
  | none =>
      rw [hall] at hfind
      exact absurd hchunk (strstr_none (by decide) hfind _)
  | some k =>
      have hlow := found_after_header hheader hsplit hfind
      have hfirst := (strstr_some hfind).2
      rw [hall] at hfirst
      have hhigh : ¬ header.length - 4 - before.length < k := fun hlt => hfirst _ hlt hchunk
      congr 1
      omega

theorem bodyPart_self {headerLen received : Nat} {bytes : List UInt8}
    (h : headerLen ≤ received) : bodyPart headerLen received bytes = bytes.zipIdx received := by
  rw [bodyPart, Nat.sub_eq_zero_of_le h, List.drop_zero]

theorem bodyPart_nil {headerLen received : Nat} {bytes : List UInt8}
    (h : received + bytes.length ≤ headerLen) : bodyPart headerLen received bytes = [] := by
  rw [bodyPart, List.drop_eq_nil_of_le (by rw [List.length_zipIdx]; omega)]

/-- A turn writes its part of the body, and nothing else, exactly when it is
harmless. -/
theorem turn_exact (before after : List UInt8) {header body : List UInt8} {turn : Turn}
    (hheader : IsHeader header) (hdelivers : turn.Delivers)
    (hsplit : before ++ turn.recv.bytes ++ after = header ++ body) :
    written before.length turn =
        some (bodyPart header.length before.length turn.recv.bytes) ↔
      Harmless header.length before.length turn := by
  obtain ⟨ready, recv⟩ := turn
  cases recv with
  | endOfStream => cases ready <;> simp [written, Recv.bytes, bodyPart, Harmless]
  | error => cases ready <;> simp [written, Recv.bytes, bodyPart, Harmless]
  | data bytes =>
      simp only [Recv.bytes] at hsplit ⊢
      obtain ⟨hne, _⟩ := hdelivers
      have hpos := List.length_pos_iff.mpr hne
      have hbody := bodyPart_length header.length before.length bytes
      cases ready with
      | false =>
          simp only [written, Harmless, Bool.false_eq_true, if_false, Option.some.injEq]
          constructor
          · intro hnil
            rw [← hnil, List.length_nil] at hbody
            omega
          · intro hinside
            rw [bodyPart_nil hinside]
      | true =>
          simp only [written, Harmless, if_true]
          have hstring := (List.takeWhile_prefix (l := bytes) fun b => decide (b ≠ 0)).length_le
          rcases fwriteArgs_cases bytes with
            ⟨hover, hargs⟩ | ⟨hterm, ⟨hnone, hargs⟩ | ⟨k, hfind, hargs⟩⟩
          · -- A full buffer without NUL is not a string: nothing is written in order.
            rw [hargs]
            simp only [not_or] at hover
            simp [hover.1, hover.2]
          · -- No CRLFCRLF in sight: the whole read is written.
            rw [hargs, Option.map_some, fwrite_eq _ (by omega), List.drop_zero,
              List.take_of_length_le (by rw [List.length_zipIdx]), Option.some.injEq]
            constructor
            · intro heq
              rw [← heq, List.length_zipIdx] at hbody
              exact Or.inr ⟨by omega, hterm, hnone⟩
            · rintro (⟨hstart, hend, hnul, _⟩ | ⟨hstart, _, _⟩)
              · rw [header_end_found hheader hsplit hstart hend hnul] at hnone
                cases hnone
              · rw [bodyPart_self hstart]
          · -- CRLFCRLF was found at `k`: the string after it is written.
            have hlow := found_after_header hheader hsplit hfind
            have hfits := (strstr_some hfind).1.le (by decide)
            have hlen : crlfcrlf.length = 4 := rfl
            rw [hargs, Option.map_some, fwrite_eq _ (by omega), Option.some.injEq]
            constructor
            · intro heq
              have hcount := congrArg List.length heq
              rw [hbody, List.length_take, List.length_drop, List.length_zipIdx] at hcount
              have hall : (bytes.takeWhile fun b => b ≠ 0).length = bytes.length := by omega
              have hself := (List.takeWhile_prefix (l := bytes) _).eq_of_length hall
              have hnul : 0 ∉ bytes := by
                intro hmem
                simpa using List.takeWhile_eq_self_iff.mp hself 0 hmem
              exact Or.inl ⟨by omega, by omega, hnul, hterm.resolve_left hnul⟩
            · rintro (⟨hstart, hend, hnul, _⟩ | ⟨_, _, hnone⟩)
              · rw [header_end_found hheader hsplit hstart hend hnul] at hfind
                have hk : k = header.length - 4 - before.length := by simpa using hfind.symm
                have hself : bytes.takeWhile (fun b => b ≠ 0) = bytes :=
                  List.takeWhile_eq_self_iff.mpr fun b hb => by
                    simpa using fun h : b = 0 => hnul (h ▸ hb)
                rw [hself, List.take_of_length_le
                  (by rw [List.length_drop, List.length_zipIdx]), bodyPart]
                congr 1
                omega
              · rw [hfind] at hnone
                cases hnone

theorem append_cancel_of_bound {β : Type*} (f : β → Nat) {n : Nat} {as bs as' bs' : List β}
    (ha : ∀ x ∈ as, f x < n) (ha' : ∀ x ∈ as', f x < n)
    (hb : ∀ x ∈ bs, n ≤ f x) (hb' : ∀ x ∈ bs', n ≤ f x)
    (h : as ++ bs = as' ++ bs') : as = as' ∧ bs = bs' := by
  have hfilter : ∀ {xs ys : List β}, (∀ x ∈ xs, f x < n) → (∀ x ∈ ys, n ≤ f x) →
      (xs ++ ys).filter (fun x => f x < n) = xs := by
    intro xs ys hxs hys
    rw [List.filter_append, List.filter_eq_self.mpr (by simpa using hxs),
      List.filter_eq_nil_iff.mpr (by simpa using hys), List.append_nil]
  have hfirst : as = as' := by
    rw [← hfilter ha hb, h, hfilter ha' hb']
  subst hfirst
  exact ⟨rfl, List.append_cancel_left h⟩

theorem zipIdx_bounds {bytes : List UInt8} {received : Nat} {x : UInt8 × Nat}
    (h : x ∈ bytes.zipIdx received) : received ≤ x.2 ∧ x.2 < received + bytes.length := by
  obtain ⟨hlow, hhigh, _⟩ := List.mem_zipIdx h
  exact ⟨hlow, hhigh⟩

theorem written_bounds {received : Nat} {turn : Turn} {file : File}
    (h : written received turn = some file) :
    ∀ x ∈ file, received ≤ x.2 ∧ x.2 < received + turn.recv.bytes.length := by
  obtain ⟨ready, recv⟩ := turn
  cases recv with
  | endOfStream => cases ready <;> simp [written] at h <;> simp [h]
  | error => cases ready <;> simp [written] at h <;> simp [h]
  | data bytes =>
      cases ready with
      | false =>
          simp only [written, Option.some.injEq] at h
          simp [← h]
      | true =>
          obtain ⟨⟨ptr, len⟩, hargs, rfl⟩ := Option.map_eq_some_iff.mp h
          have hstring := (List.takeWhile_prefix (l := bytes) fun b => decide (b ≠ 0)).length_le
          have hinside : ptr + len ≤ bytes.length := by
            rcases fwriteArgs_cases bytes with ⟨_, heq⟩ | ⟨_, ⟨_, heq⟩ | ⟨k, hfind, heq⟩⟩
            · rw [heq] at hargs
              cases hargs
            · rw [heq] at hargs
              cases hargs
              omega
            · have hfits := (strstr_some hfind).1.le (by decide)
              have hlen : crlfcrlf.length = 4 := rfl
              rw [heq] at hargs
              cases hargs
              omega
          intro x hx
          simp only [fwrite_eq received hinside] at hx
          exact zipIdx_bounds (List.mem_of_mem_drop (List.mem_of_mem_take hx))

theorem writtenAll_bounds {received : Nat} {turns : List Turn} {file : File}
    (h : writtenAll received turns = some file) : ∀ x ∈ file, received ≤ x.2 := by
  induction turns generalizing received file with
  | nil =>
      simp only [writtenAll, Option.some.injEq] at h
      simp [← h]
  | cons turn turns ih =>
      cases hnow : written received turn with
      | none => simp [writtenAll, hnow] at h
      | some now =>
          cases hlater : writtenAll (received + turn.recv.bytes.length) turns with
          | none => simp [writtenAll, hnow, hlater] at h
          | some later =>
              simp only [writtenAll, hnow, hlater, Option.some.injEq] at h
              subst h
              intro x hx
              cases List.mem_append.mp hx with
              | inl hx =>
                  exact (written_bounds hnow x hx).1
              | inr hx =>
                  have := ih hlater x hx
                  omega

/-- The turns write the body exactly when each of them is harmless. -/
theorem turns_exact (before after : List UInt8) {header body : List UInt8} {turns : List Turn}
    (hheader : IsHeader header) (hdelivers : ∀ turn ∈ turns, turn.Delivers)
    (hsplit : before ++ turns.flatMap (fun turn => turn.recv.bytes) ++ after = header ++ body) :
    writtenAll before.length turns =
        some (bodyPart header.length before.length
          (turns.flatMap fun turn => turn.recv.bytes)) ↔
      AllHarmless header.length before.length turns := by
  induction turns generalizing before with
  | nil => simp [writtenAll, bodyPart, AllHarmless]
  | cons turn turns ih =>
      rw [List.flatMap_cons] at hsplit ⊢
      have hturn := turn_exact before (turns.flatMap (fun turn => turn.recv.bytes) ++ after)
        hheader (hdelivers turn List.mem_cons_self) (by rw [← hsplit]; simp)
      have hrest := ih (before ++ turn.recv.bytes)
        (fun t ht => hdelivers t (List.mem_cons_of_mem _ ht)) (by rw [← hsplit]; simp)
      rw [List.length_append] at hrest
      rw [AllHarmless, ← hturn, ← hrest, bodyPart_append]
      constructor
      · intro h
        cases hnow : written before.length turn with
        | none => simp [writtenAll, hnow] at h
        | some now =>
            cases hlater : writtenAll (before.length + turn.recv.bytes.length) turns with
            | none => simp [writtenAll, hnow, hlater] at h
            | some later =>
                simp only [writtenAll, hnow, hlater, Option.some.injEq] at h
                obtain ⟨h1, h2⟩ := append_cancel_of_bound Prod.snd
                  (fun x hx => (written_bounds hnow x hx).2)
                  (fun x hx => (zipIdx_bounds (List.mem_of_mem_drop hx)).2)
                  (fun x hx => writtenAll_bounds hlater x hx)
                  (fun x hx => (zipIdx_bounds (List.mem_of_mem_drop hx)).1) h
                exact ⟨congrArg some h1, congrArg some h2⟩
      · rintro ⟨hnow, hlater⟩
        simp only [writtenAll, hnow, hlater]

/-- The loop up to the end of the stream, said through what each turn writes. -/
theorem receiveLoop_end (onError : Nat) (file : File) (received : Nat) {turns : List Turn}
    (hdelivers : ∀ turn ∈ turns, turn.Delivers) :
    receiveLoop onError (some file) received (turns ++ [endTurn]) =
      match writtenAll received turns with
      | none => .undefined
      | some more => .returned 1 (some (file ++ more)) := by
  induction turns generalizing file received with
  | nil => simp [receiveLoop, endTurn, fclose, writtenAll]
  | cons turn turns ih =>
      have hturn := hdelivers turn List.mem_cons_self
      have htail := fun f r => ih f r fun t ht => hdelivers t (List.mem_cons_of_mem _ ht)
      obtain ⟨ready, recv⟩ := turn
      cases recv with
      | endOfStream =>
          obtain rfl : ready = false := hturn
          simp only [List.cons_append, receiveLoop, htail, writtenAll, written, Recv.bytes,
            List.length_nil, Nat.add_zero]
          cases writtenAll received turns <;> rfl
      | error =>
          obtain rfl : ready = false := hturn
          simp only [List.cons_append, receiveLoop, htail, writtenAll, written, Recv.bytes,
            List.length_nil, Nat.add_zero]
          cases writtenAll received turns <;> rfl
      | data bytes =>
          cases ready with
          | false =>
              simp only [List.cons_append, receiveLoop, htail, writtenAll, written, Recv.bytes]
              cases writtenAll (received + bytes.length) turns <;> rfl
          | true =>
              cases hargs : fwriteArgs bytes with
              | none => simp [receiveLoop, hargs, writtenAll, written]
              | some args =>
                  simp only [List.cons_append, receiveLoop, hargs, htail, writtenAll, written,
                    Recv.bytes, Option.map_some]
                  cases writtenAll (received + bytes.length) turns <;>
                    simp [List.append_assoc]

theorem savesBody_iff (header body : List UInt8) (result : Result) :
    SavesBody header body result ↔
      result = .returned 1 (some (body.zipIdx header.length)) := by
  constructor
  · rintro ⟨file, rfl, hbytes, hplaces⟩
    rw [List.zipIdx_eq_zip_range', ← hplaces, ← hbytes, ← List.zip_of_prod rfl rfl]
  · rintro rfl
    exact ⟨_, rfl, List.zipIdx_map_fst _ _, List.zipIdx_map_snd _ _⟩

theorem loop_saves_body_iff (onError : Nat) {header body : List UInt8} {turns : List Turn}
    (hheader : IsHeader header) (hsplits : Splits turns (header ++ body)) :
    SavesBody header body (receiveLoop onError (some []) 0 (turns ++ [endTurn])) ↔
      AllHarmless header.length 0 turns := by
  have hexact := turns_exact [] [] hheader hsplits.1
    (by simpa using hsplits.2)
  have hbody : bodyPart header.length 0 (header ++ body) = body.zipIdx header.length := by
    rw [bodyPart_append, bodyPart_nil (by omega), bodyPart_self (by omega)]
    simp
  rw [hsplits.2, List.length_nil, hbody] at hexact
  rw [savesBody_iff, receiveLoop_end _ _ _ hsplits.1, ← hexact]
  cases writtenAll 0 turns <;> simp

def HttpSetup.ok : HttpSetup := ⟨true, true, true, true⟩

def HttpsSetup.ok : HttpsSetup := ⟨true, true, true, true, true, true⟩

/-- Both functions save exactly the body when, and only when, every read before the
end of the stream is harmless. -/
theorem get_http_file_saves_body_iff (header body : List UInt8) (turns : List Turn)
    (hheader : IsHeader header) (hsplits : Splits turns (header ++ body)) :
    (SavesBody header body (getHttpFile .ok (turns ++ [endTurn])) ↔
      AllHarmless header.length 0 turns) ∧
    (SavesBody header body (getHttpsFile .ok (turns ++ [endTurn])) ↔
      AllHarmless header.length 0 turns) :=
  ⟨loop_saves_body_iff 1 hheader hsplits, loop_saves_body_iff 0 hheader hsplits⟩

def aHeader : List UInt8 := [65, 13, 10, 13, 10]

def aBody : List UInt8 := [66, 67, 68, 0, 69]

/-- A read after a timeout, inside the header; one over the end of the header; a timeout without
data; and a read in the body. -/
def fourTurns : List Turn :=
  [⟨false, .data [65]⟩, ⟨true, .data [13, 10, 13, 10, 66, 67]⟩, ⟨false, .error⟩,
    ⟨true, .data [68, 0, 69]⟩]

theorem get_http_file_saves_body_four_turns :
    IsHeader aHeader ∧ Splits fourTurns (aHeader ++ aBody) ∧
      SavesBody aHeader aBody (getHttpFile .ok (fourTurns ++ [endTurn])) ∧
      SavesBody aHeader aBody (getHttpsFile .ok (fourTurns ++ [endTurn])) := by
  have hheader : IsHeader aHeader := ⟨by decide, by decide⟩
  have hsplits : Splits fourTurns (aHeader ++ aBody) :=
    ⟨by simp [fourTurns, Turn.Delivers, ulBufferSize], rfl⟩
  obtain ⟨http, https⟩ := get_http_file_saves_body_iff _ _ _ hheader hsplits
  have harmless : AllHarmless aHeader.length 0 fourTurns :=
    ⟨by simp [Harmless, aHeader], .inl (by decide), trivial, .inr (by decide), trivial⟩
  exact ⟨hheader, hsplits, http.mpr harmless, https.mpr harmless⟩

/-- A header that arrives in two reads ends up in the file. -/
theorem get_http_file_keeps_header :
    ¬ ∀ (header body : List UInt8) (turns : List Turn),
      IsHeader header → Splits turns (header ++ body) →
      ∃ file : File, getHttpFile .ok (turns ++ [endTurn]) = .returned 1 (some file) ∧
        file.map Prod.fst = body := by
  intro hall
  obtain ⟨file, hfile, hbody⟩ := hall [65, 13, 10, 13, 10] [66]
    [⟨true, .data [65]⟩, ⟨true, .data [13, 10, 13, 10, 66]⟩] ⟨by decide, by decide⟩
    ⟨by simp [Turn.Delivers, ulBufferSize], rfl⟩
  have hrun : getHttpFile .ok
      ([⟨true, .data [65]⟩, ⟨true, .data [13, 10, 13, 10, 66]⟩] ++ [endTurn]) =
      .returned 1 (some [(65, 0), (66, 5)]) := by decide +kernel
  rw [hrun] at hfile
  cases hfile
  exact absurd hbody (by decide)

end LinuxTraining.Speedtest
