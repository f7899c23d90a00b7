import LinuxTraining.Socket.Session

/-!
The buffers of `handle_client` and of the client's loop, with any peer at the other end.
A `read` may fill the whole buffer, and the terminator behind its bytes is then outside.
The bytes of each read, the place of its terminator and the string that is made of it
are recorded for the statements only.
-/
namespace LinuxTraining.Socket.ReadBuffers
open Execution CString Stdio
open Session (put receive cutNewline stringOf)

inductive Delivery where
  | bytes (bytes : List Char)
  | closed
  | error
  deriving DecidableEq

/-- `send` is the handler's `write`, and the client's prompt up to its `send`. -/
inductive Event where
  | send
  | read (d : Delivery)
  deriving DecidableEq

structure Receipt where
  bytes : List Char
  place : Nat
  string : Option (List Char)
  deriving DecidableEq

/-- `buffer[bytes_read] = '\0'` behind the bytes of a read. -/
def receipt (buffer bytes : List Char) : Receipt where
  bytes := bytes
  place := bytes.length
  string := (receive buffer bytes).bind (text nul)

structure HandlerLoop where
  pc : Session.HandlerPc
  buffer : List Char
  receipts : List Receipt
  answers : List (List Char)
  deriving DecidableEq

structure ClientLoop where
  pc : Session.ClientPc
  buffer : List Char
  stdin : List Char
  sent : List (List Char)
  receipts : List Receipt
  deriving DecidableEq

namespace HandlerLoop

def start : HandlerLoop where
  pc := .reading
  buffer := List.replicate bufferSize nul
  receipts := []
  answers := []

def read (h : HandlerLoop) : Delivery → Option HandlerLoop
  | .bytes bytes =>
      if h.pc = .reading ∧ 0 < bytes.length ∧ bytes.length ≤ bufferSize then
        let receipts := h.receipts ++ [receipt h.buffer bytes]
        match receive h.buffer bytes with
        | none => some { h with pc := .undefined, receipts := receipts }
        | some buffer =>
            match reverseString buffer with
            | none => some { h with pc := .undefined, receipts := receipts }
            | some buffer =>
                some { h with pc := .writing, buffer := buffer, receipts := receipts }
      else none
  | .closed | .error => if h.pc = .reading then some { h with pc := .closed } else none

def write (h : HandlerLoop) : Option HandlerLoop :=
  if h.pc = .writing then
    match text nul h.buffer with
    | none => some { h with pc := .undefined }
    | some answer => some { h with pc := .reading, answers := h.answers ++ [answer] }
  else none

end HandlerLoop

def handleClient (h : HandlerLoop) : Event → Option HandlerLoop
  | .send => h.write
  | .read d => h.read d

namespace ClientLoop

def start (stdin : List Char) : ClientLoop where
  pc := .typing
  buffer := List.replicate bufferSize nul
  stdin := stdin
  sent := []
  receipts := []

/-- From `fgets` to `send`. At the end of the input `fgets` leaves the buffer as it is. -/
def prompt (c : ClientLoop) : Option ClientLoop :=
  if c.pc = .typing then
    let (line, rest) := fgets (bufferSize - 1) c.stdin
    match cutNewline (if c.stdin = [] then c.buffer else put c.buffer line) with
    | none => some { c with pc := .undefined, stdin := rest }
    | some buffer =>
        match text nul buffer with
        | none => some { c with pc := .undefined, stdin := rest }
        | some message =>
            if message = "exit".toList then
              some { c with pc := .closed, buffer := buffer, stdin := rest }
            else
              some { c with
                pc := .waiting
                buffer := buffer
                stdin := rest
                sent := c.sent ++ [message] }
  else none

def read (c : ClientLoop) : Delivery → Option ClientLoop
  | .bytes bytes =>
      if c.pc = .waiting ∧ 0 < bytes.length ∧ bytes.length ≤ bufferSize then
        let receipts := c.receipts ++ [receipt c.buffer bytes]
        match receive c.buffer bytes with
        | none => some { c with pc := .undefined, receipts := receipts }
        | some buffer =>
            match text nul buffer with
            | none => some { c with pc := .undefined, receipts := receipts }
            | some _ => some { c with pc := .typing, buffer := buffer, receipts := receipts }
      else none
  | .closed | .error => if c.pc = .waiting then some { c with pc := .closed } else none

end ClientLoop

def clientLoop (c : ClientLoop) : Event → Option ClientLoop
  | .send => c.prompt
  | .read d => c.read d

/-- The terminator is stored inside the buffer, and the string has no other characters than
the first ones of the read. -/
structure Within (r : Receipt) : Prop where
  place : r.place < bufferSize
  string : ∃ t, r.string = some t ∧ t <+: r.bytes

def Event.given : Event → Option (List Char)
  | .read (.bytes bytes) => some bytes
  | .send | .read .closed | .read .error => none

theorem within_receipt_iff (buffer bytes : List Char) :
    Within (receipt buffer bytes) ↔ bytes.length < bufferSize := by
  constructor
  · intro h
    exact h.place
  · intro h
    refine ⟨h, stringOf bytes, ?_, List.takeWhile_prefix _⟩
    rw [receipt, receive, if_pos h, Option.bind_some, Session.text_put]

theorem forall_given {es : List Event} {P : List Char → Prop} :
    (∀ e ∈ es, ∀ bytes ∈ e.given, P bytes) ↔ ∀ bytes, .read (.bytes bytes) ∈ es → P bytes := by
  constructor
  · intro h bytes hbytes
    exact h _ hbytes bytes rfl
  · intro h e he bytes hbytes
    cases e with
    | send => cases hbytes
    | read d =>
        cases d with
        | bytes given =>
            cases hbytes
            exact h bytes he
        | closed | error => cases hbytes

def Records {σ : Type} (step : σ → Event → Option σ) (receipts : σ → List Receipt) : Prop :=
  ∀ s e t, step s e = some t →
    ∃ buffer, receipts t = receipts s ++ (e.given.map (receipt buffer)).toList

section
variable {σ : Type} {step : σ → Event → Option σ} {receipts : σ → List Receipt} {s t : σ}

theorem Records.step_iff (hrecords : Records step receipts) {e : Event} (h : step s e = some t) :
    (∀ r ∈ receipts t, Within r) ↔
      (∀ r ∈ receipts s, Within r) ∧ ∀ bytes ∈ e.given, bytes.length < bufferSize := by
  obtain ⟨buffer, hreceipts⟩ := hrecords s e t h
  rw [hreceipts, List.forall_mem_append]
  refine and_congr_right fun _ => ?_
  cases e.given with
  | none => simp
  | some bytes => simpa using within_receipt_iff buffer bytes

/-- All terminators are inside the buffer exactly when no read of the run fills it. -/
theorem Records.run_iff (hrecords : Records step receipts) {es : List Event}
    (h : run step s es = some t) :
    (∀ r ∈ receipts t, Within r) ↔
      (∀ r ∈ receipts s, Within r) ∧
        ∀ bytes, .read (.bytes bytes) ∈ es → bytes.length < bufferSize := by
  rw [← forall_given]
  induction es generalizing s with
  | nil =>
      cases h
      simp
  | cons e es ih =>
      obtain ⟨m, hm, ht⟩ := run_cons.mp h
      rw [ih ht, hrecords.step_iff hm, List.forall_mem_cons, and_assoc]

end

inductive HandlerLoop.Moves (h : HandlerLoop) : Event → HandlerLoop → Prop where
  | read {bytes buffer : List Char} (reading : h.pc = .reading)
      (fits : bytes.length < bufferSize)
      (length : h.buffer.length = bufferSize → buffer.length = bufferSize)
      (answer : text nul buffer = some (stringOf bytes).reverse) :
      Moves h (.read (.bytes bytes)) { h with
        pc := .writing
        buffer := buffer
        receipts := h.receipts ++ [receipt h.buffer bytes] }
  | full {bytes : List Char} (reading : h.pc = .reading) (full : bytes.length = bufferSize) :
      Moves h (.read (.bytes bytes)) { h with
        pc := .undefined
        receipts := h.receipts ++ [receipt h.buffer bytes] }
  | write {answer : List Char} (writing : h.pc = .writing)
      (buffer : text nul h.buffer = some answer) :
      Moves h .send { h with pc := .reading, answers := h.answers ++ [answer] }
  | lost (writing : h.pc = .writing) (buffer : text nul h.buffer = none) :
      Moves h .send { h with pc := .undefined }
  | stop {d : Delivery} (reading : h.pc = .reading) (nothing : (Event.read d).given = none) :
      Moves h (.read d) { h with pc := .closed }

namespace HandlerLoop
variable {h k : HandlerLoop}

theorem read_cases {d : Delivery} (hread : h.read d = some k) : Moves h (.read d) k := by
  cases d with
  | closed | error =>
      simp only [read, Option.ite_none_right_eq_some, Option.some.injEq] at hread
      obtain ⟨hreading, rfl⟩ := hread
      exact .stop hreading rfl
  | bytes bytes =>
      simp only [read, Option.ite_none_right_eq_some] at hread
      obtain ⟨⟨hreading, -, hsize⟩, hread⟩ := hread
      by_cases hfits : bytes.length < bufferSize
      · obtain ⟨reversed, hreversed, hanswer, hlength⟩ :=
          Session.reverseString_put h.buffer hfits
        simp only [receive, if_pos hfits, hreversed, Option.some.injEq] at hread
        subst hread
        refine .read hreading hfits (fun hbuffer => ?_) hanswer
        rw [hlength, Session.length_put (hbuffer ▸ hfits), hbuffer]
      · simp only [receive, if_neg hfits, Option.some.injEq] at hread
        subst hread
        exact .full hreading (by omega)

theorem write_cases (hwrite : h.write = some k) : Moves h .send k := by
  simp only [write, Option.ite_none_right_eq_some] at hwrite
  obtain ⟨hwriting, hwrite⟩ := hwrite
  cases hbuffer : text nul h.buffer with
  | none =>
      simp only [hbuffer, Option.some.injEq] at hwrite
      exact hwrite ▸ .lost hwriting hbuffer
  | some answer =>
      simp only [hbuffer, Option.some.injEq] at hwrite
      exact hwrite ▸ .write hwriting hbuffer

theorem step_cases {e : Event} (hstep : handleClient h e = some k) : Moves h e k := by
  cases e with
  | send => exact write_cases hstep
  | read d => exact read_cases hstep

theorem records : Records handleClient HandlerLoop.receipts := by
  intro h e k hstep
  refine ⟨h.buffer, ?_⟩
  cases step_cases hstep with
  | read | full => rfl
  | write | lost => exact (List.append_nil _).symm
  | stop reading nothing =>
      rw [nothing]
      exact (List.append_nil _).symm

theorem length_step {e : Event} (hstep : handleClient h e = some k)
    (hbuffer : h.buffer.length = bufferSize) : k.buffer.length = bufferSize := by
  cases step_cases hstep with
  | read reading fits length => exact length hbuffer
  | full | write | lost | stop => exact hbuffer

theorem length_buffer {es : List Event} (hrun : run handleClient start es = some h) :
    h.buffer.length = bufferSize :=
  invariant_run (fun _ _ _ hs hstep => length_step hstep hs) List.length_replicate hrun

def inHand (h : HandlerLoop) : List (List Char) :=
  if h.pc = .writing then (text nul h.buffer).toList else []

structure Answering (h : HandlerLoop) : Prop where
  defined : h.pc ≠ .undefined
  writing : h.pc = .writing → ∃ answer, text nul h.buffer = some answer
  answers : h.answers ++ h.inHand = h.receipts.map fun r => (stringOf r.bytes).reverse

theorem Answering.start : Answering start where
  defined := by simp [HandlerLoop.start]
  writing := by simp [HandlerLoop.start]
  answers := by simp [HandlerLoop.start, inHand]

theorem inHand_of_ne_writing (hpc : h.pc ≠ .writing) : h.inHand = [] := by
  rw [inHand, if_neg hpc]

theorem inHand_of_writing (hpc : h.pc = .writing) {answer : List Char}
    (hbuffer : text nul h.buffer = some answer) : h.inHand = [answer] := by
  rw [inHand, if_pos hpc, hbuffer, Option.toList_some]

theorem Answering.step {e : Event} (hh : Answering h)
    (hshort : ∀ bytes ∈ e.given, bytes.length < bufferSize)
    (hstep : handleClient h e = some k) : Answering k := by
  have hanswers := hh.answers
  cases step_cases hstep with
  | read reading fits length answer =>
      rw [inHand_of_ne_writing (by simp [reading]), List.append_nil] at hanswers
      refine ⟨by simp, fun _ => ⟨_, answer⟩, ?_⟩
      rw [inHand_of_writing rfl answer, List.map_append, hanswers]
      rfl
  | full reading full => exact absurd (hshort _ rfl) (by omega)
  | write writing buffer =>
      rw [inHand_of_writing writing buffer] at hanswers
      refine ⟨by simp, by simp, ?_⟩
      rw [inHand_of_ne_writing (by simp), List.append_nil]
      exact hanswers
  | lost writing buffer =>
      obtain ⟨answer, hanswer⟩ := hh.writing writing
      rw [buffer] at hanswer
      cases hanswer
  | stop reading =>
      rw [inHand_of_ne_writing (by simp [reading])] at hanswers
      refine ⟨by simp, by simp, ?_⟩
      rw [inHand_of_ne_writing (by simp)]
      exact hanswers

/-- A handler whose buffer is never filled answers every read with its string reversed. -/
theorem answers_reversed {es : List Event} (hrun : run handleClient start es = some h)
    (hshort : ∀ bytes, .read (.bytes bytes) ∈ es → bytes.length < bufferSize) : Answering h := by
  have hsteps : Along handleClient (fun _ e => ∀ bytes ∈ e.given, bytes.length < bufferSize)
      start es := along_of_forall start fun e he _ => forall_given.mpr hshort e he
  exact invariant_along (fun _ _ _ hh hc hstep => hh.step hc hstep) Answering.start hsteps hrun

end HandlerLoop

namespace ClientLoop
variable {c t : ClientLoop}

/-- What a step of the client leaves as it is: the size of its buffer, and the receipts but
for that of a read. -/
structure Moved (c : ClientLoop) (e : Event) (t : ClientLoop) : Prop where
  length : c.buffer.length = bufferSize → t.buffer.length = bufferSize
  receipts : t.receipts = c.receipts ++ (e.given.map (receipt c.buffer)).toList

theorem Moved.quiet {e : Event} (hgiven : e.given = none) (hreceipts : t.receipts = c.receipts)
    (hlength : c.buffer.length = bufferSize → t.buffer.length = bufferSize) : Moved c e t := by
  refine ⟨hlength, ?_⟩
  rw [hgiven, hreceipts]
  exact (List.append_nil _).symm

theorem prompt_moved (h : c.prompt = some t) : Moved c .send t := by
  simp only [prompt, Option.ite_none_right_eq_some] at h
  obtain ⟨-, h⟩ := h
  have hline := length_fgets (bufferSize - 1) c.stdin
  have hlength : ∀ {cut : List Char},
      cutNewline (if c.stdin = [] then c.buffer
        else put c.buffer (fgets (bufferSize - 1) c.stdin).1) = some cut →
      c.buffer.length = bufferSize → cut.length = bufferSize := by
    intro cut hcut hbuffer
    rw [Session.length_cutNewline hcut]
    split
    · exact hbuffer
    · have hfits : (fgets (bufferSize - 1) c.stdin).1.length < c.buffer.length := by
        simp only [bufferSize] at hline hbuffer ⊢
        omega
      rw [Session.length_put hfits, hbuffer]
  split at h
  · cases h
    exact .quiet rfl rfl id
  · next cut hcut =>
    split at h
    · cases h
      exact .quiet rfl rfl id
    · split at h
      · cases h
        exact .quiet rfl rfl (hlength hcut)
      · cases h
        exact .quiet rfl rfl (hlength hcut)

theorem read_moved {d : Delivery} (h : c.read d = some t) : Moved c (.read d) t := by
  cases d with
  | closed | error =>
      simp only [read, Option.ite_none_right_eq_some, Option.some.injEq] at h
      obtain ⟨-, rfl⟩ := h
      exact .quiet rfl rfl id
  | bytes bytes =>
      simp only [read, Option.ite_none_right_eq_some] at h
      obtain ⟨-, h⟩ := h
      by_cases hfits : bytes.length < bufferSize
      · simp only [receive, if_pos hfits, Session.text_put, Option.some.injEq] at h
        subst h
        refine ⟨fun hbuffer => ?_, rfl⟩
        rw [Session.length_put (hbuffer ▸ hfits), hbuffer]
      · simp only [receive, if_neg hfits, Option.some.injEq] at h
        subst h
        exact ⟨id, rfl⟩

theorem step_moved {e : Event} (h : clientLoop c e = some t) : Moved c e t := by
  cases e with
  | send => exact prompt_moved h
  | read d => exact read_moved h

theorem records : Records clientLoop ClientLoop.receipts := fun c _ _ h =>
  ⟨c.buffer, (step_moved h).receipts⟩

theorem length_buffer {stdin : List Char} {es : List Event}
    (h : run clientLoop (start stdin) es = some t) : t.buffer.length = bufferSize :=
  invariant_run (fun _ _ _ hs hstep => (step_moved hstep).length hs) List.length_replicate h

end ClientLoop

/-- In all reads of a run the terminator is inside the buffer, and the string is made of the
bytes of that read only, exactly when none of them fills the buffer. -/
theorem terminators_inside_iff (stdin : List Char) (ds es : List Event) (h : HandlerLoop)
    (c : ClientLoop) (hhandler : run handleClient HandlerLoop.start ds = some h)
    (hclient : run clientLoop (ClientLoop.start stdin) es = some c) :
    ((∀ r ∈ h.receipts, Within r) ↔
      ∀ bytes, .read (.bytes bytes) ∈ ds → bytes.length < bufferSize) ∧
    ((∀ r ∈ c.receipts, Within r) ↔
      ∀ bytes, .read (.bytes bytes) ∈ es → bytes.length < bufferSize) := by
  constructor
  · rw [HandlerLoop.records.run_iff hhandler]
    exact and_iff_right (List.forall_mem_nil _)
  · rw [ClientLoop.records.run_iff hclient]
    exact and_iff_right (List.forall_mem_nil _)

/-- A message with its answer, and a client that reads an answer and leaves. -/
theorem terminators_inside_iff_short :
    ∃ h c, run handleClient HandlerLoop.start
        [.read (.bytes "abc".toList), .send, .read .closed] = some h ∧
      run clientLoop (ClientLoop.start "abc\nexit\n".toList)
        [.send, .read (.bytes "cba".toList), .send] = some c ∧
      (∀ r ∈ h.receipts, Within r) ∧ ∀ r ∈ c.receipts, Within r := by
  have hhandler : (run handleClient HandlerLoop.start
      [.read (.bytes "abc".toList), .send, .read .closed]).isSome := by decide +kernel
  have hclient : (run clientLoop (ClientLoop.start "abc\nexit\n".toList)
      [.send, .read (.bytes "cba".toList), .send]).isSome := by decide +kernel
  obtain ⟨h, hh⟩ := Option.isSome_iff_exists.mp hhandler
  obtain ⟨c, hc⟩ := Option.isSome_iff_exists.mp hclient
  obtain ⟨hinside, cinside⟩ := terminators_inside_iff _ _ _ h c hh hc
  refine ⟨h, c, hh, hc, hinside.mpr fun bytes hbytes => ?_, cinside.mpr fun bytes hbytes => ?_⟩
  · have hgiven : bytes = "abc".toList := by simpa using hbytes
    rw [hgiven]
    decide
  · have hgiven : bytes = "cba".toList := by simpa using hbytes
    rw [hgiven]
    decide

/-- The peer sends 1024 bytes that come in one read. -/
theorem full_read_outside :
    ∃ h, run handleClient HandlerLoop.start
        [.read (.bytes (List.replicate bufferSize 'a'))] = some h ∧
      ∃ r ∈ h.receipts, r.place = 1024 ∧ ¬ Within r := by
  have hmap : (run handleClient HandlerLoop.start
      [.read (.bytes (List.replicate bufferSize 'a'))]).map
        (fun h => h.receipts.map Receipt.place) = some [1024] := by decide +kernel
  obtain ⟨h, hh, hplaces⟩ := Option.map_eq_some_iff.mp hmap
  obtain ⟨r, hr, hplace⟩ := List.mem_map.mp (hplaces ▸ List.mem_cons_self)
  refine ⟨h, hh, r, hr, hplace, fun hwithin => ?_⟩
  have hlt := hwithin.place
  rw [hplace] at hlt
  exact absurd hlt (by decide)

end LinuxTraining.Socket.ReadBuffers
