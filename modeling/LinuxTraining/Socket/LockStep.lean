import LinuxTraining.Socket.Session

/-!
The lock-step of a client and its handler: the client sends, the handler answers, the
client reads. An empty message is not sent at all, so nothing comes back for it; and a
`read` that fills the whole buffer is followed by a store outside of it.
-/
namespace LinuxTraining.Socket.Session
open Execution CString

/-- Both sides are blocked in `read`, and no byte is on its way. -/
def Deadlocked (s : State) : Prop :=
  s.client = .waiting ∧ s.handler = .reading ∧ s.toServer = [] ∧ s.toClient = []

instance (s : State) : Decidable (Deadlocked s) := by
  unfold Deadlocked
  infer_instance

/-- Neither side has left its buffer, and they are not waiting for each other. -/
structure LockStep (s : State) : Prop where
  client : s.client ≠ .undefined
  handler : s.handler ≠ .undefined
  live : ¬ Deadlocked s

def Busy (s : State) : Prop := s.handler ≠ .reading ∨ s.toServer ≠ [] ∨ s.toClient ≠ []

instance (s : State) : Decidable (Busy s) := by
  unfold Busy
  infer_instance

/-- The string that `fgets` gives is not empty, it is more than one character unless the
handler is busy, and no `read` fills the buffer. -/
def Paced (s : State) (e : Event) : Prop :=
  match e with
  | .prompt => s.line ≠ [] ∧ (s.line.length = 1 → Busy s)
  | .clientRead n | .handlerRead n => n < bufferSize
  | _ => True

instance (s : State) (e : Event) : Decidable (Paced s e) :=
  match e with
  | .prompt => inferInstanceAs (Decidable (s.line ≠ [] ∧ (s.line.length = 1 → Busy s)))
  | .clientRead n => inferInstanceAs (Decidable (n < bufferSize))
  | .handlerRead n => inferInstanceAs (Decidable (n < bufferSize))
  | .clientEnd | .clientError | .handlerWrite | .handlerEnd | .handlerError => isTrue trivial

structure Answering (s : State) : Prop extends LockStep s where
  plain : nul ∉ s.toServer
  answer : s.handler = .writing → ∃ a, a ≠ [] ∧ text nul s.handlerBuffer = some a

variable {s t : State}

theorem Answering.start (stdin : List Char) : Answering (start stdin) where
  client := by simp [Session.start]
  handler := by simp [Session.start]
  live := by simp [Session.start, Deadlocked]
  plain := by simp [Session.start]
  answer := by simp [Session.start]

theorem nul_not_mem_message (s : State) : nul ∉ s.line.dropLast := fun h =>
  nul_not_mem_stringOf _ (List.mem_of_mem_dropLast h)

/-- What the handler reads is a string, and so is its answer. -/
theorem answer_ne_nil {n : Nat} (hplain : nul ∉ s.toServer) (hpos : 0 < n)
    (hcome : n ≤ s.toServer.length) : (stringOf (s.toServer.take n)).reverse ≠ [] := by
  rw [stringOf_plain fun h => hplain (List.mem_of_mem_take h), Ne, List.reverse_eq_nil_iff,
    ← List.length_eq_zero_iff, List.length_take]
  omega

theorem Answering.step {e : Event} (hs : Answering s) (hc : Paced s e)
    (hstep : step s e = some t) : Answering t := by
  cases step_cases hstep with
  | overrun typing typed line => exact absurd line hc.1
  | exit typing typed line exit =>
      exact ⟨⟨by simp, hs.handler, by simp [Deadlocked]⟩, hs.plain, hs.answer⟩
  | send typing typed line stays =>
      refine ⟨⟨by simp, hs.handler, ?_⟩, ?_, hs.answer⟩
      · intro hdead
        obtain ⟨-, hreading, hserver, hclient⟩ := hdead
        obtain ⟨hserver, hmessage⟩ := List.append_eq_nil_iff.mp hserver
        have hone : s.line.length = 1 := by
          have hpos := List.length_pos_iff.mpr line
          have hlast := congrArg List.length hmessage
          rw [List.length_dropLast, List.length_nil] at hlast
          omega
        cases hc.2 hone with
        | inl hbusy => exact hbusy hreading
        | inr hbusy =>
            cases hbusy with
            | inl hbusy => exact hbusy hserver
            | inr hbusy => exact hbusy hclient
      · intro hmem
        cases List.mem_append.mp hmem with
        | inl hold => exact hs.plain hold
        | inr hnew => exact nul_not_mem_message s hnew
  | clientRead waiting pos fits come =>
      exact ⟨⟨by simp, hs.handler, by simp [Deadlocked]⟩, hs.plain, hs.answer⟩
  | clientFull waiting full come => exact absurd full (Nat.ne_of_lt hc)
  | clientEnd waiting come closed | clientError waiting =>
      exact ⟨⟨by simp, hs.handler, by simp [Deadlocked]⟩, hs.plain, hs.answer⟩
  | handlerRead reading pos fits come answer =>
      refine ⟨⟨hs.client, by simp, by simp [Deadlocked]⟩, ?_, fun _ => ?_⟩
      · exact fun h => hs.plain (List.mem_of_mem_drop h)
      · exact ⟨_, answer_ne_nil hs.plain pos come, answer⟩
  | handlerFull reading full come => exact absurd full (Nat.ne_of_lt hc)
  | handlerWrite writing buffer =>
      obtain ⟨a, hne, ha⟩ := hs.answer writing
      rw [buffer, Option.some.injEq] at ha
      refine ⟨⟨hs.client, by simp, ?_⟩, hs.plain, by simp⟩
      simp [Deadlocked, ha, hne]
  | handlerLost writing buffer =>
      obtain ⟨a, -, ha⟩ := hs.answer writing
      simp [buffer] at ha
  | handlerEnd reading come closed | handlerError reading =>
      exact ⟨⟨hs.client, by simp, by simp [Deadlocked]⟩, hs.plain, by simp⟩

end LinuxTraining.Socket.Session
