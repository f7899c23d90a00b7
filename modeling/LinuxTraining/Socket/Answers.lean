import LinuxTraining.Socket.Session

/-!
What the client prints for a message. The handler reverses each piece that one `read`
gives it, and the client prints what its first `read` gives: the reverse of the message
comes out when the whole answer is read at once, and the pieces in the order of their
answers still make the message.
-/
namespace LinuxTraining.Socket.Session
open Execution CString Stdio

structure IsMessage (m : List Char) : Prop where
  nonempty : m ≠ []
  plain : nul ∉ m
  line : '\n' ∉ m
  length : m.length ≤ 1022
  stays : m ≠ "exit".toList

/-- The client reads when the handler is done with the message, it reads all that has
come, and the pieces of the message read backwards as they read forwards. -/
def Whole (s : State) (e : Event) : Prop :=
  match e with
  | .clientRead n => s.toServer = [] ∧ s.handler ≠ .writing ∧ n = s.toClient.length ∧
      s.pieces.reverse.flatten = s.pieces.flatten
  | _ => True

instance (s : State) (e : Event) : Decidable (Whole s e) :=
  match e with
  | .clientRead n => inferInstanceAs (Decidable (s.toServer = [] ∧ s.handler ≠ .writing ∧
      n = s.toClient.length ∧ s.pieces.reverse.flatten = s.pieces.flatten))
  | .prompt | .clientEnd | .clientError | .handlerRead _ | .handlerWrite | .handlerEnd
    | .handlerError => isTrue trivial

structure Waiting (s : State) : Prop where
  plain : nul ∉ s.message
  length : s.message.length ≤ 1022
  message : s.pieces.flatten ++ s.toServer = s.message
  answer : s.toClient ++ s.inHand = (s.pieces.map List.reverse).flatten
  writing : s.handler = .writing → s.inHand ≠ []

structure Typing (s : State) : Prop where
  toServer : s.toServer = []
  toClient : s.toClient = []
  handler : s.handler ≠ .writing

structure Reversing (s : State) : Prop where
  right : ∀ p ∈ s.printed, p.2 = p.1.reverse
  stdin : ∃ lines, (∀ m ∈ lines, IsMessage m) ∧ s.stdin = typed lines
  typing : s.client = .typing → Typing s
  waiting : s.client = .waiting → Waiting s

variable {s t : State}

theorem Reversing.start {lines : List (List Char)} (hlines : ∀ m ∈ lines, IsMessage m) :
    Reversing (start (typed lines)) where
  right := by simp [Session.start]
  stdin := ⟨lines, hlines, rfl⟩
  typing := fun _ => ⟨rfl, rfl, by simp [Session.start]⟩
  waiting := by simp [Session.start]

theorem line_typed {m : List Char} {lines : List (List Char)} (hm : IsMessage m)
    (hstdin : s.stdin = typed (m :: lines)) :
    s.line = m ++ ['\n'] ∧ s.unread = typed lines := by
  have hfgets : fgets (bufferSize - 1) s.stdin = (m ++ ['\n'], typed lines) := by
    have hshape : typed (m :: lines) = m ++ '\n' :: typed lines := by simp [typed]
    rw [hstdin, hshape]
    refine fgets_line _ (fun c hc h => hm.line (h ▸ hc)) ?_
    have := hm.length
    simp only [bufferSize]
    omega
  rw [State.line, State.unread, hfgets]
  refine ⟨stringOf_plain ?_, rfl⟩
  simp only [List.mem_append, List.mem_singleton, not_or]
  exact ⟨hm.plain, by decide⟩

theorem Reversing.next (hs : Reversing s) (htyped : s.stdin ≠ []) :
    ∃ m lines, IsMessage m ∧ (∀ l ∈ lines, IsMessage l) ∧ s.line = m ++ ['\n'] ∧
      s.unread = typed lines := by
  obtain ⟨lines, hlines, hstdin⟩ := hs.stdin
  cases lines with
  | nil => exact absurd hstdin htyped
  | cons m lines =>
      have hm := hlines m List.mem_cons_self
      obtain ⟨hline, hunread⟩ := line_typed hm hstdin
      exact ⟨m, lines, hm, fun l hl => hlines l (List.mem_cons_of_mem m hl), hline, hunread⟩

theorem inHand_of_ne_writing (h : s.handler ≠ .writing) : s.inHand = [] := by
  rw [State.inHand, if_neg h]

theorem inHand_of_writing (h : s.handler = .writing) :
    s.inHand = (text nul s.handlerBuffer).getD [] := by
  rw [State.inHand, if_pos h]

theorem flatten_reverse_pieces (pieces : List (List Char)) :
    (pieces.map List.reverse).flatten = pieces.reverse.flatten.reverse := by
  rw [List.reverse_flatten, List.map_reverse, List.reverse_reverse]

/-- What has come of the answer is no longer than the message. -/
theorem Waiting.bounds (hw : Waiting s) :
    s.toClient.length + s.inHand.length + s.toServer.length = s.message.length := by
  have hanswer := congrArg List.length hw.answer
  have hmessage := congrArg List.length hw.message
  rw [flatten_reverse_pieces, List.length_reverse, List.length_append] at hanswer
  rw [List.length_append] at hmessage
  have hpieces : s.pieces.reverse.flatten.length = s.pieces.flatten.length := by
    rw [List.length_flatten, List.length_flatten, List.map_reverse, List.sum_reverse]
  omega

/-- No read of a message or of its answer can fill a buffer. -/
theorem Waiting.room (hw : Waiting s) :
    s.toClient.length < bufferSize ∧ s.toServer.length < bufferSize := by
  have hbounds := hw.bounds
  have hlength := hw.length
  simp only [bufferSize]
  omega

theorem Waiting.plain_toClient (hw : Waiting s) : nul ∉ s.toClient := by
  intro hmem
  have hanswer : nul ∈ s.toClient ++ s.inHand := List.mem_append_left _ hmem
  rw [hw.answer, flatten_reverse_pieces, List.mem_reverse] at hanswer
  refine hw.plain ?_
  rw [← hw.message]
  refine List.mem_append_left _ ?_
  simpa using hanswer

/-- What one read takes of the answer is the whole reversed message exactly when the read
is as `Whole` says. -/
theorem Waiting.read_iff (hw : Waiting s) {n : Nat} (hcome : n ≤ s.toClient.length) :
    s.toClient.take n = s.message.reverse ↔ Whole s (.clientRead n) := by
  have hbounds := hw.bounds
  constructor
  · intro hread
    have hlength := congrArg List.length hread
    rw [List.length_take, Nat.min_eq_left hcome, List.length_reverse] at hlength
    have hserver : s.toServer = [] := List.length_eq_zero_iff.mp (by omega)
    have hhand : s.inHand = [] := List.length_eq_zero_iff.mp (by omega)
    have hall : n = s.toClient.length := by omega
    refine ⟨hserver, fun hwriting => hw.writing hwriting hhand, hall, ?_⟩
    have hanswer := hw.answer
    have hmessage := hw.message
    rw [hhand, List.append_nil, flatten_reverse_pieces] at hanswer
    rw [hserver, List.append_nil] at hmessage
    rw [hall, List.take_length, hanswer, ← hmessage] at hread
    exact List.reverse_injective hread
  · intro hwhole
    obtain ⟨hserver, hhandler, hall, hpieces⟩ := hwhole
    have hanswer := hw.answer
    have hmessage := hw.message
    rw [inHand_of_ne_writing hhandler, List.append_nil, flatten_reverse_pieces, hpieces] at hanswer
    rw [hserver, List.append_nil] at hmessage
    rw [hall, List.take_length, hanswer, hmessage]

/-- The handler takes a piece of the message, and holds its reverse. -/
theorem Waiting.handlerRead (hw : Waiting s) {n : Nat} {buffer : List Char}
    (reading : s.handler = .reading) (pos : 0 < n) (come : n ≤ s.toServer.length)
    (answer : text nul buffer = some (stringOf (s.toServer.take n)).reverse) :
    Waiting { s with
      handler := .writing
      handlerBuffer := buffer
      toServer := s.toServer.drop n
      pieces := s.pieces ++ [s.toServer.take n] } := by
  have hpiece : nul ∉ s.toServer.take n := by
    intro hmem
    refine hw.plain ?_
    rw [← hw.message]
    exact List.mem_append_right _ (List.mem_of_mem_take hmem)
  rw [stringOf_plain hpiece] at answer
  have hidle := inHand_of_ne_writing (s := s) (by simp [reading])
  have hanswer := hw.answer
  rw [hidle, List.append_nil] at hanswer
  refine ⟨hw.plain, hw.length, ?_, ?_, fun _ => ?_⟩
  · rw [← hw.message]
    simp
  · simp [State.inHand, answer, hanswer]
  · rw [State.inHand, if_pos rfl, answer, Option.getD_some, Ne, List.reverse_eq_nil_iff,
      ← List.length_eq_zero_iff, List.length_take]
    omega

theorem Waiting.handlerWrite (hw : Waiting s) {answer : List Char}
    (writing : s.handler = .writing) (buffer : text nul s.handlerBuffer = some answer) :
    Waiting { s with handler := .reading, toClient := s.toClient ++ answer } := by
  refine ⟨hw.plain, hw.length, hw.message, ?_, by simp⟩
  have hanswer := hw.answer
  rw [inHand_of_writing writing, buffer, Option.getD_some] at hanswer
  simpa [State.inHand] using hanswer

/-- The handler stops between two messages or pieces. -/
theorem Waiting.stop (hw : Waiting s) (reading : s.handler = .reading) :
    Waiting { s with handler := .closed } := by
  refine ⟨hw.plain, hw.length, hw.message, ?_, by simp⟩
  have hanswer := hw.answer
  rw [inHand_of_ne_writing (by simp [reading])] at hanswer
  simpa [State.inHand] using hanswer

theorem Reversing.send (hs : Reversing s) {buffer : List Char} (typing : s.client = .typing)
    (typed : s.stdin ≠ []) :
    Reversing { s with
      client := .waiting
      clientBuffer := buffer
      stdin := s.unread
      toServer := s.toServer ++ s.line.dropLast
      message := s.line.dropLast
      pieces := [] } := by
  obtain ⟨m, lines, hm, hlines, hline, hunread⟩ := hs.next typed
  have hmessage : s.line.dropLast = m := by simp [hline]
  obtain ⟨hserver, hclient, hhandler⟩ := hs.typing typing
  refine ⟨hs.right, ⟨lines, hlines, hunread⟩, by simp, fun _ => ?_⟩
  rw [hmessage]
  refine ⟨hm.plain, hm.length, by simp [hserver], ?_, fun hwriting => absurd hwriting hhandler⟩
  simpa [State.inHand, hhandler] using hclient

theorem Reversing.step {e : Event} (hs : Reversing s) (hc : Whole s e)
    (hstep : step s e = some t) : Reversing t := by
  cases step_cases hstep with
  | overrun typing typed line =>
      obtain ⟨m, lines, -, -, hline, -⟩ := hs.next typed
      simp [hline] at line
  | exit typing typed line exit =>
      obtain ⟨m, lines, hm, -, hline, -⟩ := hs.next typed
      rw [hline, List.dropLast_concat] at exit
      exact absurd exit hm.stays
  | send typing typed line stays => exact hs.send typing typed
  | clientRead waiting pos fits come =>
      have hw := hs.waiting waiting
      have hread := (hw.read_iff come).mpr hc
      obtain ⟨hserver, hhandler, hall, -⟩ := hc
      refine ⟨fun p hp => ?_, hs.stdin, fun _ => ⟨hserver, by simp [hall], hhandler⟩, by simp⟩
      cases List.mem_append.mp hp with
      | inl hold => exact hs.right p hold
      | inr hnew =>
          rw [List.mem_singleton.mp hnew, hread]
          exact stringOf_plain (by simpa using hw.plain)
  | clientFull waiting full come =>
      have hroom := (hs.waiting waiting).room.1
      omega
  | clientEnd | clientError => exact ⟨hs.right, hs.stdin, by simp, by simp⟩
  | handlerRead reading pos fits come answer =>
      refine ⟨hs.right, hs.stdin, fun htyping => ?_, fun hwaiting => ?_⟩
      · rw [(hs.typing htyping).toServer, List.length_nil] at come
        omega
      · exact (hs.waiting hwaiting).handlerRead reading pos come answer
  | handlerFull reading full come =>
      refine ⟨hs.right, hs.stdin, fun htyping => ?_, fun hwaiting => ?_⟩
      · rw [(hs.typing htyping).toServer, List.length_nil, full] at come
        cases come
      · have hroom := (hs.waiting hwaiting).room.2
        omega
  | handlerWrite writing buffer =>
      refine ⟨hs.right, hs.stdin, fun htyping => ?_, fun hwaiting => ?_⟩
      · exact absurd writing (hs.typing htyping).handler
      · exact (hs.waiting hwaiting).handlerWrite writing buffer
  | handlerLost writing buffer =>
      refine ⟨hs.right, hs.stdin, fun htyping => ?_, fun hwaiting => ?_⟩
      · exact absurd writing (hs.typing htyping).handler
      · have hhand := (hs.waiting hwaiting).writing writing
        simp [inHand_of_writing writing, buffer] at hhand
  | handlerEnd reading | handlerError reading =>
      refine ⟨hs.right, hs.stdin, fun htyping => ?_, fun hwaiting => ?_⟩
      · obtain ⟨hserver, hclient, -⟩ := hs.typing htyping
        exact ⟨hserver, hclient, by simp⟩
      · exact (hs.waiting hwaiting).stop reading

/-- A read that is not as `Whole` says prints something else. -/
theorem Reversing.spoils {e : Event} (hs : Reversing s) (hc : ¬ Whole s e)
    (hstep : Session.step s e = some t) : ∃ p ∈ t.printed, p.2 ≠ p.1.reverse := by
  cases step_cases hstep with
  | @clientRead n buffer waiting pos fits come =>
      have hw := hs.waiting waiting
      refine ⟨_, List.mem_append_right _ List.mem_cons_self, fun hright => hc ?_⟩
      have hplain : nul ∉ s.toClient.take n := fun hmem =>
        hw.plain_toClient (List.mem_of_mem_take hmem)
      rw [stringOf_plain hplain] at hright
      exact (hw.read_iff come).mp hright
  | clientFull waiting full come =>
      have hroom := (hs.waiting waiting).room.1
      omega
  | _ => exact absurd trivial hc

theorem printed_step {e : Event} (hstep : Session.step s e = some t) {p : List Char × List Char}
    (hp : p ∈ s.printed) : p ∈ t.printed := by
  cases step_cases hstep with
  | clientRead => exact List.mem_append_left _ hp
  | _ => exact hp

/-- Every message comes out reversed exactly when every answer is read whole. -/
theorem answers_reversed_iff (lines : List (List Char)) (hlines : ∀ m ∈ lines, IsMessage m)
    (es : List Event) (s : State) (h : run step (start (typed lines)) es = some s) :
    (∀ p ∈ s.printed, p.2 = p.1.reverse) ↔ Along step Whole (start (typed lines)) es := by
  have hrun : (Along step Whole (start (typed lines)) es ∧ Reversing s) ∨
      (¬ Along step Whole (start (typed lines)) es ∧ ∃ p ∈ s.printed, p.2 ≠ p.1.reverse) :=
    good_iff_along
      (fun _ _ _ hs hc hstep => Reversing.step hs hc hstep)
      (fun _ _ _ hs hc hstep => Reversing.spoils hs hc hstep)
      (fun _ _ _ hbad hstep => hbad.imp fun _ hp => ⟨printed_step hstep hp.1, hp.2⟩)
      (Reversing.start hlines) h
  cases hrun with
  | inl hgood => exact iff_of_true hgood.2.right hgood.1
  | inr hbad =>
      obtain ⟨hnot, p, hp, hne⟩ := hbad
      exact iff_of_false (fun hall => hne (hall p hp)) hnot

theorem isMessage_abc : IsMessage "abc".toList where
  nonempty := by simp
  plain := by decide
  line := by decide
  length := by decide
  stays := by decide

/-- A message that is read, answered and printed in one piece. -/
theorem answers_reversed_iff_abc :
    ∃ s, run step (start (typed ["abc".toList]))
        [.prompt, .handlerRead 3, .handlerWrite, .clientRead 3] = some s ∧
      s.printed = [("abc".toList, "cba".toList)] ∧ ∀ p ∈ s.printed, p.2 = p.1.reverse := by
  have hmap : (run step (start (typed ["abc".toList]))
      [.prompt, .handlerRead 3, .handlerWrite, .clientRead 3]).map State.printed =
        some [("abc".toList, "cba".toList)] := by decide +kernel
  obtain ⟨s, hs, hprinted⟩ := Option.map_eq_some_iff.mp hmap
  refine ⟨s, hs, hprinted, (answers_reversed_iff _ ?_ _ s hs).mpr (by decide +kernel)⟩
  intro m hm
  exact List.mem_singleton.mp hm ▸ isMessage_abc

/-- The transport gives the handler the first character alone. -/
theorem segmented_message :
    ∃ s, run step (start (typed ["abc".toList]))
        [.prompt, .handlerRead 1, .handlerWrite, .handlerRead 2, .handlerWrite, .clientRead 3] =
          some s ∧
      s.printed = [("abc".toList, "acb".toList)] := by
  have hmap : (run step (start (typed ["abc".toList]))
      [.prompt, .handlerRead 1, .handlerWrite, .handlerRead 2, .handlerWrite, .clientRead 3]).map
        State.printed = some [("abc".toList, "acb".toList)] := by decide +kernel
  exact Option.map_eq_some_iff.mp hmap

end LinuxTraining.Socket.Session
