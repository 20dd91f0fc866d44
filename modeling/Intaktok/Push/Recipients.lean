import Intaktok.Push.Service
/-
# Whom the listener pushes to

While nothing else happens the listener of `MESSAGE_CREATED` comes to the tokens of the `targets`:
the recipients that are neither online nor muted (`progress_step`). It sends to them all at once or,
when there are more than 500, to nobody.
-/

namespace Intaktok.Push

open Tables

def targets (w : World) (message : SerializedMessage) (memberUserIds : List String) : List String :=
  (recipientIds message memberUserIds).filter fun u =>
    Presence.isOnline w u == some false && !isMuted w message.roomId u

/-- The listener is to push, as far as the recipients go. -/
def answered (w : World) (message : SerializedMessage) (memberUserIds : List String) : Bool :=
  message.type != .SYSTEM &&
    (recipientIds message memberUserIds).all fun u => (Presence.isOnline w u).isSome

/-- How far the listener has come, the state being `w` throughout. -/
def Progress (w : World) (message : SerializedMessage) (memberUserIds : List String) : Pc → Prop
  | .online todo offline => message.type ≠ .SYSTEM ∧ ∃ asked,
    recipientIds message memberUserIds = asked ++ todo ∧
    offline = asked.filter (Presence.isOnline w · == some false) ∧
    ∀ u ∈ asked, (Presence.isOnline w u).isSome
  | .muted offline => answered w message memberUserIds = true ∧
    offline = (recipientIds message memberUserIds).filter (Presence.isOnline w · == some false)
  | .tokens users => answered w message memberUserIds = true ∧ users = targets w message memberUserIds
  | .send tokens => answered w message memberUserIds = true ∧
    tokens = userTokens w.db (targets w message memberUserIds)
  | _ => True

section Listener
variable {cfg : AppConfig} {c : Choice} {w w' : World} {message : SerializedMessage}
  {memberUserIds : List String} {preview roomTitle : String} {pc pc' : Pc}

theorem progress_start :
    Progress w message memberUserIds
      (start (.onMessageCreated message memberUserIds preview roomTitle)) := by
  simp only [start]
  split
  · trivial
  · rename_i ht
    cases hr : recipientIds message memberUserIds with
    | nil => trivial
    | cons u us => exact ⟨ht, [], by simp [hr], rfl, by simp⟩

/-- The loop over the recipients is over. -/
theorem progress_afterOnline {asked : List String} (ht : message.type ≠ .SYSTEM)
    (hall : recipientIds message memberUserIds = asked)
    (hsome : ∀ u ∈ asked, (Presence.isOnline w u).isSome) :
    Progress w message memberUserIds
      (afterOnline (asked.filter (Presence.isOnline w · == some false))) := by
  unfold afterOnline
  split
  · trivial
  · refine ⟨?_, by rw [hall]⟩
    simp only [answered, Bool.and_eq_true, bne_iff_ne, ne_eq, List.all_eq_true]
    exact ⟨ht, hall ▸ hsome⟩

/-- One more recipient is asked. -/
theorem progress_online {u : String} {todo offline : List String}
    (hp : Progress w message memberUserIds (.online (u :: todo) offline))
    (h : handleStep cfg c message preview roomTitle w (.online (u :: todo) offline) =
      some (w', pc')) : w' = w ∧ Progress w message memberUserIds pc' := by
  obtain ⟨ht, asked, hall, rfl, hsome⟩ := hp
  simp only [handleStep, Option.some.injEq, Prod.mk.injEq] at h
  obtain ⟨rfl, rfl⟩ := h
  refine ⟨rfl, ?_⟩
  cases ho : Presence.isOnline w u with
  | none => trivial
  | some online =>
    have hfilter : (if online then asked.filter (Presence.isOnline w · == some false) else
        asked.filter (Presence.isOnline w · == some false) ++ [u]) =
        (asked ++ [u]).filter (Presence.isOnline w · == some false) := by
      cases online <;> simp [List.filter_append, ho]
    have hsome' : ∀ x ∈ asked ++ [u], (Presence.isOnline w x).isSome := by
      intro x hx
      rcases List.mem_append.1 hx with hx | hx
      · exact hsome x hx
      · rw [List.mem_singleton.1 hx, ho]; rfl
    simp only [hfilter]
    split
    · rename_i hlast
      rw [List.isEmpty_iff.1 hlast] at hall
      exact progress_afterOnline ht hall hsome'
    · exact ⟨ht, asked ++ [u], by simp [hall], rfl, hsome'⟩

/-- Until it sends, the listener only reads; what it sends goes to the tokens of the targets. -/
theorem progress_step (hp : Progress w message memberUserIds pc)
    (h : handleStep cfg c message preview roomTitle w pc = some (w', pc')) :
    (w' = w ∧ Progress w message memberUserIds pc') ∨
    (∃ m : Multicast, w' = { w with pushed := w.pushed ++ [m] } ∧ cfg.fcmEnabled = true ∧
      answered w message memberUserIds = true ∧
      m.tokens = userTokens w.db (targets w message memberUserIds) ∧ m.tokens.length ≤ 500 ∧
      ((∃ invalid, pc' = .purge invalid) ∨ pc' = .handled)) ∨
    (∃ invalid, pc = .purge invalid ∧ pc' = .handled ∧ ∃ t,
      w' = { w with db.pushTokens := t }) := by
  cases pc with
  | online todo offline =>
    cases todo with
    | nil => cases h
    | cons u todo => exact .inl (progress_online hp h)
  | muted offline =>
    obtain ⟨ha, rfl⟩ := hp
    simp only [handleStep, Option.some.injEq, Prod.mk.injEq] at h
    obtain ⟨rfl, rfl⟩ := h
    refine .inl ⟨rfl, ?_⟩
    split
    · trivial
    · refine ⟨ha, ?_⟩
      rw [targets, List.filter_filter]
      exact List.filter_congr fun u _ => by rw [Bool.and_comm]
  | tokens users =>
    obtain ⟨ha, rfl⟩ := hp
    simp only [handleStep, Option.some.injEq, Prod.mk.injEq] at h
    obtain ⟨rfl, rfl⟩ := h
    refine .inl ⟨rfl, ?_⟩
    split
    · trivial
    · exact ⟨ha, rfl⟩
  | send tokens =>
    obtain ⟨ha, rfl⟩ := hp
    simp only [handleStep, sendToTokens] at h
    split at h
    · cases h; exact .inl ⟨rfl, trivial⟩
    · rename_i hsent
      split at hsent
      · cases hsent; cases h; exact .inl ⟨rfl, by simp; trivial⟩
      · rename_i hsend
        split at hsent
        · cases hsent
        · rename_i hfew
          cases hsent
          cases h
          simp only [Bool.or_eq_true, Bool.not_eq_true', not_or, Bool.not_eq_false] at hsend
          refine .inr (.inl ⟨_, rfl, hsend.1, ha, rfl, by simpa using hfew, ?_⟩)
          split
          · exact .inr rfl
          · exact .inl ⟨_, rfl⟩
  | purge invalid => cases h; exact .inr (.inr ⟨invalid, rfl, rfl, _, rfl⟩)
  | _ => cases h

end Listener

end Intaktok.Push
