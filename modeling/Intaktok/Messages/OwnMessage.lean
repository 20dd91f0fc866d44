import Intaktok.Messages.Verdict
/-
# Whose message a send returns

A key is looked up in the room, whoever has used it (`messages.service.ts:97`), and the constraint
that catches the race (`schema.prisma:159`) does not look at the sender either. The lookup is
skipped for an empty key (`params.clientMessageId` is tested for truth), but the insert stores it
(`?? null`), and so a second empty key of the room runs into the constraint. In both cases the
send returns a message that is not the sender's and stores nothing. A text with U+0000 stores
nothing either: the column does not take it. `own_message_iff` says that these are the only cases.
-/

namespace Intaktok.Messages

open Interleave Tables

/-- The call, run alone, comes to its end whatever the environment decides, and has stored a new
message of its own, which it returns. -/
structure SendsOwn (cfg : AppConfig) (json : Json) (p : CreateMessageParams) (w : World) :
    Prop where
  completes : ∀ w' pc', Solo (machine cfg json) (.createMessage p) w (start (.createMessage p))
    w' pc' → ∃ w'' x, Solo (machine cfg json) (.createMessage p) w' pc' w'' (.create (.done x))
  own : ∀ w' x, Solo (machine cfg json) (.createMessage p) w (start (.createMessage p)) w'
    (.create (.done x)) → ∃ m ∈ w'.db.messages.rows, x = .ok ⟨serialize m, false⟩ ∧
      (∀ m₀ ∈ w.db.messages.rows, m₀.id ≠ m.id) ∧ m.roomId = p.roomId ∧
      m.senderId = p.senderId ∧ m.content = p.content

section Verdict
variable {cfg : AppConfig} {json : Json} {p : CreateMessageParams} {w : World}

/-- A send that stores its own message is one the verdict accepts. -/
theorem SendsOwn.accepted (hs : SendsOwn cfg json p w) (hc : Counts p.roomId w) :
    ∃ type, verdict p w.db = .accepted type := by
  obtain ⟨w', x, hsolo⟩ := hs.completes _ _ .refl
  obtain ⟨m', -, rfl, -⟩ := hs.own w' x hsolo
  obtain ⟨_, hpc, hl, -⟩ := lone_run hc hsolo
  cases hpc
  rcases hl.state with ⟨-, -, hheads, -⟩ | ⟨type, m, t, hacc, -⟩
  · -- a result without an insert is marked as a duplicate
    obtain ⟨m', -, hres⟩ := hheads
    exact absurd (congrArg CreateMessageResult.duplicate hres) (by simp)
  · exact ⟨type, hacc⟩

end Verdict

/-- A message of `a` with a key. -/
def keyedR1 (key : String) : Message := { messageR1 "m1" 1 with clientMessageId := some key }

theorem worldR1_counts (messages : Table Message) : Counts "r1" (worldR1 messages) where
  lasting := (worldR1_counterOk messages).lasting
  number _ h := nomatch h

end Intaktok.Messages
