import LinuxTraining.Socket.ReverseString
import LinuxTraining.Library.Execution
import LinuxTraining.Library.Stdio

/-!
One client and its handler over a stream connection. A message and its answer have
no length and no end mark on the wire: each `read` takes as many of the bytes that
have come as the transport gives it. The last message, the pieces of it that the
handler has read and what was printed are recorded for the statements only.
-/
namespace LinuxTraining.Socket
open CString Stdio

def bufferSize : Nat := 1024

namespace Session

inductive ClientPc where
  | typing
  | waiting
  | closed
  | undefined
  deriving DecidableEq

inductive HandlerPc where
  | reading
  | writing
  | closed
  | undefined
  deriving DecidableEq

structure State where
  client : ClientPc
  handler : HandlerPc
  clientBuffer : List Char
  handlerBuffer : List Char
  stdin : List Char
  toServer : List Char
  toClient : List Char
  message : List Char
  pieces : List (List Char)
  printed : List (List Char × List Char)
  deriving DecidableEq

/-- `clientRead n` and `handlerRead n` are reads that give `n` bytes. -/
inductive Event where
  | prompt
  | clientRead (n : Nat)
  | clientEnd
  | clientError
  | handlerRead (n : Nat)
  | handlerWrite
  | handlerEnd
  | handlerError
  deriving DecidableEq

def typed (lines : List (List Char)) : List Char := lines.flatMap (· ++ ['\n'])

def start (stdin : List Char) : State where
  client := .typing
  handler := .reading
  clientBuffer := List.replicate bufferSize nul
  handlerBuffer := List.replicate bufferSize nul
  stdin := stdin
  toServer := []
  toClient := []
  message := []
  pieces := []
  printed := []

def put (buffer bytes : List Char) : List Char :=
  bytes ++ nul :: buffer.drop (bytes.length + 1)

/-- `read` into the whole buffer and `buffer[bytes_read] = '\0'`, which is outside the
buffer when the bytes fill it. -/
def receive (buffer bytes : List Char) : Option (List Char) :=
  if bytes.length < bufferSize then some (put buffer bytes) else none

/-- `buffer[strlen(buffer) - 1] = '\0'`, which is outside an empty string. -/
def cutNewline (buffer : List Char) : Option (List Char) :=
  match text nul buffer with
  | none => none
  | some t => if t = [] then none else some (buffer.set (t.length - 1) nul)

namespace State

/-- From `fgets` to `send`. The prompt waits until the user has typed something. -/
def prompt (s : State) : Option State :=
  if s.client = .typing ∧ s.stdin ≠ [] then
    let (line, rest) := fgets (bufferSize - 1) s.stdin
    match cutNewline (put s.clientBuffer line) with
    | none => some { s with client := .undefined, stdin := rest }
    | some buffer =>
        match text nul buffer with
        | none => some { s with client := .undefined, stdin := rest }
        | some message =>
            if message = "exit".toList then
              some { s with client := .closed, clientBuffer := buffer, stdin := rest }
            else
              some { s with
                client := .waiting
                clientBuffer := buffer
                stdin := rest
                toServer := s.toServer ++ message
                message := message
                pieces := [] }
  else none

def clientRead (s : State) (n : Nat) : Option State :=
  if s.client = .waiting ∧ 0 < n ∧ n ≤ bufferSize ∧ n ≤ s.toClient.length then
    match receive s.clientBuffer (s.toClient.take n) with
    | none => some { s with client := .undefined }
    | some buffer =>
        match text nul buffer with
        | none => some { s with client := .undefined }
        | some answer =>
            some { s with
              client := .typing
              clientBuffer := buffer
              toClient := s.toClient.drop n
              printed := s.printed ++ [(s.message, answer)] }
  else none

def handlerRead (s : State) (n : Nat) : Option State :=
  if s.handler = .reading ∧ 0 < n ∧ n ≤ bufferSize ∧ n ≤ s.toServer.length then
    match receive s.handlerBuffer (s.toServer.take n) with
    | none => some { s with handler := .undefined }
    | some buffer =>
        match reverseString buffer with
        | none => some { s with handler := .undefined }
        | some buffer =>
            some { s with
              handler := .writing
              handlerBuffer := buffer
              toServer := s.toServer.drop n
              pieces := s.pieces ++ [s.toServer.take n] }
  else none

def handlerWrite (s : State) : Option State :=
  if s.handler = .writing then
    match text nul s.handlerBuffer with
    | none => some { s with handler := .undefined }
    | some answer =>
        some { s with handler := .reading, toClient := s.toClient ++ answer }
  else none

end State

/-- `read` returns 0 when the other side has closed and its bytes are used up. -/
def step (s : State) : Event → Option State
  | .prompt => s.prompt
  | .clientRead n => s.clientRead n
  | .clientEnd =>
      if s.client = .waiting ∧ s.toClient = [] ∧ s.handler = .closed then
        some { s with client := .closed }
      else none
  | .clientError => if s.client = .waiting then some { s with client := .closed } else none
  | .handlerRead n => s.handlerRead n
  | .handlerWrite => s.handlerWrite
  | .handlerEnd =>
      if s.handler = .reading ∧ s.toServer = [] ∧ s.client = .closed then
        some { s with handler := .closed }
      else none
  | .handlerError => if s.handler = .reading then some { s with handler := .closed } else none

def stringOf (bytes : List Char) : List Char := bytes.takeWhile fun c => c ≠ nul

def State.line (s : State) : List Char := stringOf (fgets (bufferSize - 1) s.stdin).1

def State.unread (s : State) : List Char := (fgets (bufferSize - 1) s.stdin).2

def State.inHand (s : State) : List Char :=
  if s.handler = .writing then (text nul s.handlerBuffer).getD [] else []

theorem text_put (buffer bytes : List Char) : text nul (put buffer bytes) = some (stringOf bytes) :=
  text_append nul bytes _

theorem stringOf_plain {bytes : List Char} (h : nul ∉ bytes) : stringOf bytes = bytes :=
  takeWhile_plain h

theorem nul_not_mem_stringOf (bytes : List Char) : nul ∉ stringOf bytes :=
  not_mem_takeWhile nul bytes

theorem cutNewline_put_nil {bytes : List Char} (buffer : List Char) (h : stringOf bytes = []) :
    cutNewline (put buffer bytes) = none := by
  simp [cutNewline, text_put, h]

theorem length_cutNewline {buffer cut : List Char} (h : cutNewline buffer = some cut) :
    cut.length = buffer.length := by
  rw [cutNewline] at h
  cases htext : text nul buffer with
  | none =>
      rw [htext] at h
      cases h
  | some t =>
      simp only [htext, Option.ite_none_left_eq_some, Option.some.injEq] at h
      rw [← h.2, List.length_set]

/-- The string that is left of a buffer when its last character is cut off. -/
theorem cutNewline_put {bytes : List Char} (buffer : List Char) (h : stringOf bytes ≠ []) :
    ∃ cut, cutNewline (put buffer bytes) = some cut ∧
      text nul cut = some (stringOf bytes).dropLast := by
  obtain ⟨tail, htail⟩ := exists_append_eq nul bytes (buffer.drop (bytes.length + 1))
  have hplain : nul ∉ (stringOf bytes).dropLast := fun hmem =>
    nul_not_mem_stringOf bytes (List.mem_of_mem_dropLast hmem)
  have hset : (put buffer bytes).set ((stringOf bytes).length - 1) nul =
      (stringOf bytes).dropLast ++ nul :: nul :: tail := by
    have hlast := List.dropLast_append_getLast h
    have hshape : put buffer bytes =
        (stringOf bytes).dropLast ++ (stringOf bytes).getLast h :: nul :: tail := by
      rw [put, htail, ← List.singleton_append (l := nul :: tail), ← List.append_assoc, hlast]
      rfl
    rw [hshape, ← List.length_dropLast]
    simp
  refine ⟨(stringOf bytes).dropLast ++ nul :: nul :: tail, ?_, text_plain _ _ hplain⟩
  simp only [cutNewline, text_put, if_neg h, hset]

theorem length_put {buffer bytes : List Char} (h : bytes.length < buffer.length) :
    (put buffer bytes).length = buffer.length := by
  rw [put, List.length_append, List.length_cons, List.length_drop]
  omega

theorem length_stringOf (bytes : List Char) : (stringOf bytes).length ≤ bytes.length :=
  (List.takeWhile_prefix _).length_le

/-- What the handler reverses is the string at the start of what it reads. -/
theorem reverseString_put (buffer : List Char) {bytes : List Char}
    (hfits : bytes.length < bufferSize) :
    ∃ reversed, reverseString (put buffer bytes) = some reversed ∧
      text nul reversed = some (stringOf bytes).reverse ∧
      reversed.length = (put buffer bytes).length := by
  obtain ⟨tail, htail⟩ := exists_append_eq nul bytes (buffer.drop (bytes.length + 1))
  have hplain := nul_not_mem_stringOf bytes
  have hint : (stringOf bytes).length ≤ intMax := by
    have hlength := length_stringOf bytes
    simp only [bufferSize, intMax] at hfits ⊢
    omega
  refine ⟨(stringOf bytes).reverse ++ nul :: tail, ?_, ?_, ?_⟩
  · rw [put, htail]
    exact reverseString_text _ tail hplain hint
  · exact text_plain _ tail (by simpa using hplain)
  · rw [put, htail, List.length_append, List.length_append, List.length_reverse, stringOf]

inductive Moves (s : State) : Event → State → Prop where
  | overrun (typing : s.client = .typing) (typed : s.stdin ≠ []) (line : s.line = []) :
      Moves s .prompt { s with client := .undefined, stdin := s.unread }
  | exit {buffer : List Char} (typing : s.client = .typing) (typed : s.stdin ≠ [])
      (line : s.line ≠ []) (exit : s.line.dropLast = "exit".toList) :
      Moves s .prompt { s with client := .closed, clientBuffer := buffer, stdin := s.unread }
  | send {buffer : List Char} (typing : s.client = .typing) (typed : s.stdin ≠ [])
      (line : s.line ≠ []) (stays : s.line.dropLast ≠ "exit".toList) :
      Moves s .prompt { s with
        client := .waiting
        clientBuffer := buffer
        stdin := s.unread
        toServer := s.toServer ++ s.line.dropLast
        message := s.line.dropLast
        pieces := [] }
  | clientRead {n : Nat} {buffer : List Char} (waiting : s.client = .waiting) (pos : 0 < n)
      (fits : n < bufferSize) (come : n ≤ s.toClient.length) :
      Moves s (.clientRead n) { s with
        client := .typing
        clientBuffer := buffer
        toClient := s.toClient.drop n
        printed := s.printed ++ [(s.message, stringOf (s.toClient.take n))] }
  | clientFull {n : Nat} (waiting : s.client = .waiting) (full : n = bufferSize)
      (come : n ≤ s.toClient.length) :
      Moves s (.clientRead n) { s with client := .undefined }
  | clientEnd (waiting : s.client = .waiting) (come : s.toClient = [])
      (closed : s.handler = .closed) : Moves s .clientEnd { s with client := .closed }
  | clientError (waiting : s.client = .waiting) :
      Moves s .clientError { s with client := .closed }
  | handlerRead {n : Nat} {buffer : List Char} (reading : s.handler = .reading) (pos : 0 < n)
      (fits : n < bufferSize) (come : n ≤ s.toServer.length)
      (answer : text nul buffer = some (stringOf (s.toServer.take n)).reverse) :
      Moves s (.handlerRead n) { s with
        handler := .writing
        handlerBuffer := buffer
        toServer := s.toServer.drop n
        pieces := s.pieces ++ [s.toServer.take n] }
  | handlerFull {n : Nat} (reading : s.handler = .reading) (full : n = bufferSize)
      (come : n ≤ s.toServer.length) :
      Moves s (.handlerRead n) { s with handler := .undefined }
  | handlerWrite {answer : List Char} (writing : s.handler = .writing)
      (buffer : text nul s.handlerBuffer = some answer) :
      Moves s .handlerWrite { s with handler := .reading, toClient := s.toClient ++ answer }
  | handlerLost (writing : s.handler = .writing) (buffer : text nul s.handlerBuffer = none) :
      Moves s .handlerWrite { s with handler := .undefined }
  | handlerEnd (reading : s.handler = .reading) (come : s.toServer = [])
      (closed : s.client = .closed) : Moves s .handlerEnd { s with handler := .closed }
  | handlerError (reading : s.handler = .reading) :
      Moves s .handlerError { s with handler := .closed }

theorem prompt_cases (h : s.prompt = some t) : Moves s .prompt t := by
  by_cases hready : s.client = .typing ∧ s.stdin ≠ []
  · rw [State.prompt, if_pos hready] at h
    simp only at h
    by_cases hline : s.line = []
    · rw [cutNewline_put_nil _ hline] at h
      exact Option.some.inj h ▸ .overrun hready.1 hready.2 hline
    · obtain ⟨buffer, hcut, hmessage⟩ := cutNewline_put s.clientBuffer hline
      simp only [hcut, hmessage] at h
      change (if s.line.dropLast = "exit".toList then _ else _) = _ at h
      by_cases hexit : s.line.dropLast = "exit".toList
      · rw [if_pos hexit] at h
        exact Option.some.inj h ▸ .exit hready.1 hready.2 hline hexit
      · rw [if_neg hexit] at h
        exact Option.some.inj h ▸ .send hready.1 hready.2 hline hexit
  · rw [State.prompt, if_neg hready] at h
    cases h

theorem receive_take {bytes : List Char} {n : Nat} (buffer : List Char) (hn : n ≤ bytes.length) :
    receive buffer (bytes.take n) =
      if n < bufferSize then some (put buffer (bytes.take n)) else none := by
  rw [receive, List.length_take, Nat.min_eq_left hn]

theorem clientRead_cases {n : Nat} (h : s.clientRead n = some t) : Moves s (.clientRead n) t := by
  by_cases hready : s.client = .waiting ∧ 0 < n ∧ n ≤ bufferSize ∧ n ≤ s.toClient.length
  · obtain ⟨hwaiting, hpos, hsize, hcome⟩ := hready
    simp only [State.clientRead, hwaiting, hpos, hsize, hcome, and_self, if_true,
      receive_take _ hcome] at h
    by_cases hfits : n < bufferSize
    · simp only [if_pos hfits, text_put] at h
      exact Option.some.inj h ▸ .clientRead hwaiting hpos hfits hcome
    · simp only [if_neg hfits] at h
      exact Option.some.inj h ▸ .clientFull hwaiting (by omega) hcome
  · rw [State.clientRead, if_neg hready] at h
    cases h

theorem handlerRead_cases {n : Nat} (h : s.handlerRead n = some t) :
    Moves s (.handlerRead n) t := by
  by_cases hready : s.handler = .reading ∧ 0 < n ∧ n ≤ bufferSize ∧ n ≤ s.toServer.length
  · obtain ⟨hreading, hpos, hsize, hcome⟩ := hready
    simp only [State.handlerRead, hreading, hpos, hsize, hcome, and_self, if_true,
      receive_take _ hcome] at h
    by_cases hfits : n < bufferSize
    · have hlength : (s.toServer.take n).length < bufferSize := by
        rwa [List.length_take, Nat.min_eq_left hcome]
      obtain ⟨reversed, hreversed, hanswer, -⟩ := reverseString_put s.handlerBuffer hlength
      simp only [if_pos hfits, hreversed] at h
      exact Option.some.inj h ▸ .handlerRead hreading hpos hfits hcome hanswer
    · simp only [if_neg hfits] at h
      exact Option.some.inj h ▸ .handlerFull hreading (by omega) hcome
  · rw [State.handlerRead, if_neg hready] at h
    cases h

theorem handlerWrite_cases (h : s.handlerWrite = some t) : Moves s .handlerWrite t := by
  by_cases hready : s.handler = .writing
  · rw [State.handlerWrite, if_pos hready] at h
    cases hbuffer : text nul s.handlerBuffer with
    | none =>
        simp only [hbuffer] at h
        exact Option.some.inj h ▸ .handlerLost hready hbuffer
    | some answer =>
        simp only [hbuffer] at h
        exact Option.some.inj h ▸ .handlerWrite hready hbuffer
  · rw [State.handlerWrite, if_neg hready] at h
    cases h

theorem step_cases {e : Event} (h : step s e = some t) : Moves s e t := by
  cases e with
  | prompt => exact prompt_cases h
  | clientRead n => exact clientRead_cases h
  | handlerRead n => exact handlerRead_cases h
  | handlerWrite => exact handlerWrite_cases h
  | clientEnd =>
      simp only [step, Option.ite_none_right_eq_some, Option.some.injEq] at h
      obtain ⟨⟨hwaiting, hcome, hclosed⟩, rfl⟩ := h
      exact .clientEnd hwaiting hcome hclosed
  | clientError =>
      simp only [step, Option.ite_none_right_eq_some, Option.some.injEq] at h
      obtain ⟨hwaiting, rfl⟩ := h
      exact .clientError hwaiting
  | handlerEnd =>
      simp only [step, Option.ite_none_right_eq_some, Option.some.injEq] at h
      obtain ⟨⟨hreading, hcome, hclosed⟩, rfl⟩ := h
      exact .handlerEnd hreading hcome hclosed
  | handlerError =>
      simp only [step, Option.ite_none_right_eq_some, Option.some.injEq] at h
      obtain ⟨hreading, rfl⟩ := h
      exact .handlerError hreading

end Session
end LinuxTraining.Socket
