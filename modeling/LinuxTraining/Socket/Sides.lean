import LinuxTraining.Socket.ReadBuffers

/-!
A session is a run of `handle_client` and a run of the client's loop, each of them the
peer of the other: what is proved of the two programs with any peer holds in sessions.
-/
namespace LinuxTraining.Socket.Sides
open Execution CString Stdio ReadBuffers
open Session (receive cutNewline put text_put)

structure IsHandler (s : Session.State) (h : HandlerLoop) : Prop where
  pc : h.pc = s.handler
  buffer : h.buffer = s.handlerBuffer

structure IsClient (s : Session.State) (c : ClientLoop) : Prop where
  pc : c.pc = s.client
  buffer : c.buffer = s.clientBuffer
  stdin : c.stdin = s.stdin
  printed : c.receipts.filterMap Receipt.string = s.printed.map Prod.snd

variable {s t : Session.State} {h : HandlerLoop} {c : ClientLoop}

theorem IsHandler.read {n : Nat} (hs : IsHandler s h) (hstep : s.handlerRead n = some t) :
    ∃ k, h.read (.bytes (s.toServer.take n)) = some k ∧ IsHandler t k := by
  simp only [Session.State.handlerRead, Option.ite_none_right_eq_some] at hstep
  obtain ⟨⟨hreading, hpos, hsize, hcome⟩, hstep⟩ := hstep
  have hlength : (s.toServer.take n).length = n := by
    rw [List.length_take, Nat.min_eq_left hcome]
  simp only [HandlerLoop.read, hs.pc, hs.buffer, hlength]
  rw [if_pos ⟨hreading, hpos, hsize⟩]
  cases hreceive : receive s.handlerBuffer (s.toServer.take n) with
  | none =>
      simp only [hreceive, Option.some.injEq] at hstep
      exact ⟨_, rfl, hstep ▸ ⟨rfl, rfl⟩⟩
  | some buffer =>
      simp only [hreceive] at hstep ⊢
      cases hreverse : reverseString buffer with
      | none =>
          simp only [hreverse, Option.some.injEq] at hstep
          exact ⟨_, rfl, hstep ▸ ⟨rfl, rfl⟩⟩
      | some reversed =>
          simp only [hreverse, Option.some.injEq] at hstep
          exact ⟨_, rfl, hstep ▸ ⟨rfl, rfl⟩⟩

theorem IsHandler.write (hs : IsHandler s h) (hstep : s.handlerWrite = some t) :
    ∃ k, h.write = some k ∧ IsHandler t k := by
  simp only [Session.State.handlerWrite, Option.ite_none_right_eq_some] at hstep
  obtain ⟨hwriting, hstep⟩ := hstep
  rw [HandlerLoop.write, if_pos (hs.pc.trans hwriting), hs.buffer]
  cases hbuffer : text nul s.handlerBuffer with
  | none =>
      simp only [hbuffer, Option.some.injEq] at hstep
      exact ⟨_, rfl, hstep ▸ ⟨rfl, rfl⟩⟩
  | some answer =>
      simp only [hbuffer, Option.some.injEq] at hstep
      exact ⟨_, rfl, hstep ▸ ⟨rfl, rfl⟩⟩

theorem IsHandler.other (hs : IsHandler s h) (hpc : t.handler = s.handler)
    (hbuffer : t.handlerBuffer = s.handlerBuffer) :
    ∃ es k, run handleClient h es = some k ∧ IsHandler t k :=
  ⟨[], h, rfl, hs.pc.trans hpc.symm, hs.buffer.trans hbuffer.symm⟩

theorem IsHandler.step (e : Session.Event) (hs : IsHandler s h)
    (hstep : Session.step s e = some t) :
    ∃ es k, run handleClient h es = some k ∧ IsHandler t k := by
  cases e with
  | handlerRead n => exact exists_run_of_step (.read (.bytes (s.toServer.take n))) (hs.read hstep)
  | handlerWrite => exact exists_run_of_step .send (hs.write hstep)
  | handlerEnd =>
      simp only [Session.step, Option.ite_none_right_eq_some, Option.some.injEq] at hstep
      obtain ⟨⟨hreading, -, -⟩, rfl⟩ := hstep
      refine exists_run_of_step (.read .closed) ⟨{ h with pc := .closed }, ?_, rfl, hs.buffer⟩
      rw [handleClient, HandlerLoop.read, if_pos (hs.pc.trans hreading)]
  | handlerError =>
      simp only [Session.step, Option.ite_none_right_eq_some, Option.some.injEq] at hstep
      obtain ⟨hreading, rfl⟩ := hstep
      refine exists_run_of_step (.read .error) ⟨{ h with pc := .closed }, ?_, rfl, hs.buffer⟩
      rw [handleClient, HandlerLoop.read, if_pos (hs.pc.trans hreading)]
  | prompt | clientRead n | clientEnd | clientError =>
      cases Session.step_cases hstep <;> exact hs.other rfl rfl

/-- The handler of every session is a run of `handle_client`. -/
theorem handler_of_session {stdin : List Char} {es : List Session.Event}
    (hrun : run Session.step (Session.start stdin) es = some s) :
    ∃ ds h, run handleClient HandlerLoop.start ds = some h ∧ IsHandler s h :=
  run_simulated (fun _ e _ _ hs hstep => hs.step e hstep) ⟨rfl, rfl⟩ hrun

theorem IsClient.prompt (hs : IsClient s c) (hstep : s.prompt = some t) :
    ∃ d, c.prompt = some d ∧ IsClient t d := by
  simp only [Session.State.prompt, Option.ite_none_right_eq_some] at hstep
  obtain ⟨⟨htyping, htyped⟩, hstep⟩ := hstep
  simp only [ClientLoop.prompt, hs.buffer, hs.stdin, if_neg htyped]
  rw [if_pos (hs.pc.trans htyping)]
  cases hcut : cutNewline (put s.clientBuffer (fgets (bufferSize - 1) s.stdin).1) with
  | none =>
      simp only [hcut, Option.some.injEq] at hstep
      exact ⟨_, rfl, hstep ▸ ⟨rfl, rfl, rfl, hs.printed⟩⟩
  | some buffer =>
      simp only [hcut] at hstep ⊢
      cases hmessage : text nul buffer with
      | none =>
          simp only [hmessage, Option.some.injEq] at hstep
          exact ⟨_, rfl, hstep ▸ ⟨rfl, rfl, rfl, hs.printed⟩⟩
      | some message =>
          simp only [hmessage] at hstep ⊢
          by_cases hexit : message = "exit".toList
          · rw [if_pos hexit, Option.some.injEq] at hstep
            rw [if_pos hexit]
            exact ⟨_, rfl, hstep ▸ ⟨rfl, rfl, rfl, hs.printed⟩⟩
          · rw [if_neg hexit, Option.some.injEq] at hstep
            rw [if_neg hexit]
            exact ⟨_, rfl, hstep ▸ ⟨rfl, rfl, rfl, hs.printed⟩⟩

theorem IsClient.read {n : Nat} (hs : IsClient s c) (hstep : s.clientRead n = some t) :
    ∃ d, c.read (.bytes (s.toClient.take n)) = some d ∧ IsClient t d := by
  simp only [Session.State.clientRead, Option.ite_none_right_eq_some] at hstep
  obtain ⟨⟨hwaiting, hpos, hsize, hcome⟩, hstep⟩ := hstep
  have hlength : (s.toClient.take n).length = n := by
    rw [List.length_take, Nat.min_eq_left hcome]
  simp only [ClientLoop.read, hs.pc, hs.buffer, hlength]
  rw [if_pos ⟨hwaiting, hpos, hsize⟩]
  have hprinted := hs.printed
  cases hreceive : receive s.clientBuffer (s.toClient.take n) with
  | none =>
      simp only [hreceive, Option.some.injEq] at hstep
      refine ⟨_, rfl, hstep ▸ ⟨rfl, rfl, hs.stdin, ?_⟩⟩
      simp [List.filterMap_append, hprinted, receipt, hreceive]
  | some buffer =>
      simp only [hreceive] at hstep ⊢
      cases hanswer : text nul buffer with
      | none =>
          simp only [hanswer, Option.some.injEq] at hstep
          refine ⟨_, rfl, hstep ▸ ⟨rfl, rfl, hs.stdin, ?_⟩⟩
          simp [List.filterMap_append, hprinted, receipt, hreceive, hanswer]
      | some answer =>
          simp only [hanswer, Option.some.injEq] at hstep
          refine ⟨_, rfl, hstep ▸ ⟨rfl, rfl, hs.stdin, ?_⟩⟩
          simp [List.filterMap_append, hprinted, receipt, hreceive, hanswer]

theorem IsClient.other (hs : IsClient s c) (hpc : t.client = s.client)
    (hbuffer : t.clientBuffer = s.clientBuffer) (hstdin : t.stdin = s.stdin)
    (hprinted : t.printed = s.printed) :
    ∃ es d, run clientLoop c es = some d ∧ IsClient t d :=
  ⟨[], c, rfl, hs.pc.trans hpc.symm, hs.buffer.trans hbuffer.symm, hs.stdin.trans hstdin.symm,
    hs.printed.trans (congrArg _ hprinted.symm)⟩

theorem IsClient.step (e : Session.Event) (hs : IsClient s c)
    (hstep : Session.step s e = some t) :
    ∃ es d, run clientLoop c es = some d ∧ IsClient t d := by
  cases e with
  | prompt => exact exists_run_of_step .send (hs.prompt hstep)
  | clientRead n => exact exists_run_of_step (.read (.bytes (s.toClient.take n))) (hs.read hstep)
  | clientEnd =>
      simp only [Session.step, Option.ite_none_right_eq_some, Option.some.injEq] at hstep
      obtain ⟨⟨hwaiting, -, -⟩, rfl⟩ := hstep
      refine exists_run_of_step (.read .closed)
        ⟨{ c with pc := .closed }, ?_, rfl, hs.buffer, hs.stdin, hs.printed⟩
      rw [clientLoop, ClientLoop.read, if_pos (hs.pc.trans hwaiting)]
  | clientError =>
      simp only [Session.step, Option.ite_none_right_eq_some, Option.some.injEq] at hstep
      obtain ⟨hwaiting, rfl⟩ := hstep
      refine exists_run_of_step (.read .error)
        ⟨{ c with pc := .closed }, ?_, rfl, hs.buffer, hs.stdin, hs.printed⟩
      rw [clientLoop, ClientLoop.read, if_pos (hs.pc.trans hwaiting)]
  | handlerRead n | handlerWrite | handlerEnd | handlerError =>
      cases Session.step_cases hstep <;> exact hs.other rfl rfl rfl rfl

/-- The client of every session is a run of the client's loop. -/
theorem client_of_session {stdin : List Char} {es : List Session.Event}
    (hrun : run Session.step (Session.start stdin) es = some s) :
    ∃ ds c, run clientLoop (ClientLoop.start stdin) ds = some c ∧ IsClient s c :=
  run_simulated (fun _ e _ _ hs hstep => hs.step e hstep) ⟨rfl, rfl, rfl, rfl⟩ hrun

/-- Both buffers keep their size in every session. -/
theorem length_buffers {stdin : List Char} {es : List Session.Event}
    (hrun : run Session.step (Session.start stdin) es = some s) :
    s.handlerBuffer.length = bufferSize ∧ s.clientBuffer.length = bufferSize := by
  obtain ⟨ds, h, hh, hhandler⟩ := handler_of_session hrun
  obtain ⟨ds', c, hc, hclient⟩ := client_of_session hrun
  rw [← hhandler.buffer, ← hclient.buffer]
  exact ⟨HandlerLoop.length_buffer hh, ClientLoop.length_buffer hc⟩

end LinuxTraining.Socket.Sides
