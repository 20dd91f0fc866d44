import Intaktok.Http.Senders
import Intaktok.Realtime.Audience
/-
# Who sees somebody typing

`relayTyping` (`realtime.gateway.ts:281`) stores nothing and answers nothing. What it relays names
the user of the socket, found among the members of the room by its first query, and goes to all
others its second query finds there; each of these has his personal room to himself
(`typing_inside`).
-/

namespace Intaktok.Http

open Interleave Tables Realtime
open Messages (getActiveMemberIds)

variable {d : Deps}

/-- Only the second query of `relayTyping` is followed by an event. -/
theorem typed_of_front {c : FrontChoice} {k : FrontCall} {s s' : Site} {l l' : FrontPc}
    (hs : (front d).step c k s l = some (s', l')) {t : Typing}
    (ht : t ∈ s'.typed.drop s.typed.length) :
    ∃ id roomId, k = .typing id roomId t.isTyping ∧ l = .typing (.recipients t.roomId t.userId) ∧
      t.rooms = ((getActiveMemberIds s.hub.world.db t.roomId).filter (· != t.userId)).map
        userRoom := by
  have hsilent : s'.typed ≠ s.typed := by
    intro hsame
    rw [hsame, List.drop_length] at ht
    cases ht
  cases acts_of_front hs with
  | served | queried | guarded => exact absurd rfl hsilent
  | @typed id roomId isTyping pc s' pc' htyping =>
    cases pc with
    | recipients r u =>
      cases htyping
      split at ht
      · rw [List.drop_length] at ht
        cases ht
      · rw [List.drop_left] at ht
        obtain rfl := List.mem_singleton.1 ht
        exact ⟨id, roomId, rfl, rfl, rfl⟩
    | done => cases htyping
    | _ => cases htyping; exact absurd rfl hsilent

section Runs
variable {ι : Type} [DecidableEq ι] {D : Discipline Site FrontCall FrontPc}
  {calls : ι → FrontCall} {site : Site} {Q : Pool Site FrontPc ι} {i : ι} {id r u : String}
  {roomId : JsValue} {isTyping : Bool}

/-- The first query has found the user of the socket in the room that is named. -/
theorem member_of_typing (hrun : Run (front d) D calls ((front d).initial calls site) Q)
    (hcall : calls i = .typing id roomId isTyping)
    (hpc : Q.pcs i = .typing (.recipients r u)) :
    Met (front d) D calls ((front d).initial calls site)
      (fun S => roomId = .str r ∧ u ∈ getActiveMemberIds S.shared.hub.world.db r ∧
        S.pcs i = .typing (.member (some u))) Q := by
  refine hrun.passed (p := fun k l => k = .typing id roomId isTyping ∧ l = .typing (.recipients r u))
    (φ := fun _ s l => roomId = .str r ∧ u ∈ getActiveMemberIds s.hub.world.db r ∧
      l = .typing (.member (some u))) ?_ ?_ i ⟨hcall, hpc⟩
  · rintro j ⟨hj, hstart⟩
    simp only [Machine.initial, hj] at hstart
    cases hstart
  · rintro c k s l s' l' hs ⟨rfl, rfl⟩
    generalize hl' : FrontPc.typing (.recipients r u) = l' at hs
    cases acts_of_front hs with
    | served => cases hl'
    | @typed _ _ _ pc _ pc' htyping =>
      cases hl'
      cases pc with
      | member userId =>
        obtain ⟨-, hnext⟩ := Prod.mk.inj (Option.some.inj htyping)
        split at hnext
        · split at hnext <;> cases hnext
          rename_i hmember
          exact .inr (.inl ⟨rfl,
            member_of_assertActiveMember (Option.isNone_iff_eq_none.1 hmember), rfl⟩)
        · cases hnext
      | _ => cases htyping

theorem user_of_typing (hrun : Run (front d) D calls ((front d).initial calls site) Q)
    (hcall : calls i = .typing id roomId isTyping)
    (hpc : Q.pcs i = .typing (.member (some u))) :
    Met (front d) D calls ((front d).initial calls site)
      (fun S => (S.shared.hub.sockets id).userId = some u) Q := by
  refine hrun.passed (p := fun k l => k = .typing id roomId isTyping ∧
    l = .typing (.member (some u))) (φ := fun _ s _ => (s.hub.sockets id).userId = some u) ?_ ?_ i
    ⟨hcall, hpc⟩
  · rintro j ⟨hj, hstart⟩
    simp only [Machine.initial, hj] at hstart
    cases hstart
  · rintro c k s l s' l' hs ⟨rfl, rfl⟩
    generalize hl' : FrontPc.typing (.member (some u)) = l' at hs
    cases acts_of_front hs with
    | served => cases hl'
    | @typed _ _ _ pc _ pc' htyping =>
      cases hl'
      cases pc with
      | received =>
        obtain ⟨-, hnext⟩ := Prod.mk.inj (Option.some.inj htyping)
        exact .inr (.inl (TypingPc.member.inj hnext))
      | member userId =>
        obtain ⟨-, hnext⟩ := Prod.mk.inj (Option.some.inj htyping)
        split at hnext
        · split at hnext <;> cases hnext
        · cases hnext
      | _ => cases htyping

/-- **Typing stays inside.** From a server on which nobody is connected, whatever is in flight: what
an action relays of a user typing comes from a socket that a token of his had opened, and he has
been found in the room; it goes to the personal rooms of all others who are in the room, and the
sockets in these are theirs. -/
theorem typing_inside (hc : Cuids site.hub.world.db) (hnew : Fresh site.hub)
    (hone : OneHandshake (FrontCall.call d ∘ calls))
    (hrun : Run (front d) D calls ((front d).initial calls site) Q) {c : FrontChoice} {s' : Site}
    {l' : FrontPc} (hs : (front d).step c (calls i) Q.shared (Q.pcs i) = some (s', l'))
    {t : Typing} (ht : t ∈ s'.typed.drop Q.shared.typed.length) :
    (∃ id, calls i = .typing id (.str t.roomId) t.isTyping ∧
      Met (front d) D calls ((front d).initial calls site) (fun S =>
        t.userId ∈ getActiveMemberIds S.shared.hub.world.db t.roomId ∧
        Presented d D calls ((front d).initial calls site) id t.userId S) Q) ∧
    ∃ ids : List String, t.rooms = ids.map userRoom ∧
      (∀ v, v ∈ ids ↔ v ∈ getActiveMemberIds Q.shared.hub.world.db t.roomId ∧ v ≠ t.userId) ∧
      ∀ v ∈ ids, ∀ s, userRoom v ∈ (Q.shared.hub.sockets s).rooms →
        (Q.shared.hub.sockets s).userId = some v := by
  obtain ⟨id, roomId, hcall, hpc, hrooms⟩ := typed_of_front hs ht
  have hS : Sealed Q.shared.hub := sealed_run hc hnew hone ((fronts d).run_initial hrun)
  refine ⟨?_, _, hrooms, fun v => ?_, fun v _ s => hS s v⟩
  · obtain ⟨S, h₁, ⟨rfl, hmember, hread⟩, h₂⟩ := member_of_typing hrun hcall hpc
    obtain ⟨T, h₃, hu, h₄⟩ := user_of_typing h₁ hcall hread
    have hpresented := presented_run (hnew id).1 h₃ hu
    exact ⟨id, hcall, S, h₁, ⟨hmember, hpresented.later h₄⟩, h₂⟩
  · simp only [List.mem_filter, bne_iff_ne]

end Runs

/-! ### `a` types -/

def connectAndType : Bool → FrontCall
  | true => .socket (.inl (.connect "sa" { token := some "a" }))
  | false => .typing "sa" (.str "r1") true

theorem connectAndType_oneHandshake : OneHandshake (FrontCall.call depsAB ∘ connectAndType) := by
  intro i j s hs hs₂ hi hj
  cases i with
  | false => cases hi
  | true => cases j with
    | false => cases hj
    | true => rfl

theorem typing_inside_a : ∃ (Q : Pool Site FrontPc Bool) (s' : Site) (l' : FrontPc) (t : Typing),
    (front depsAB).step {} (connectAndType false) Q.shared (Q.pcs false) = some (s', l') ∧
    t ∈ s'.typed.drop Q.shared.typed.length ∧
    ∃ ids : List String, t.rooms = ids.map userRoom ∧
      (∀ v, v ∈ ids ↔ v ∈ getActiveMemberIds Q.shared.hub.world.db t.roomId ∧ v ≠ t.userId) ∧
      ∀ v ∈ ids, ∀ s, userRoom v ∈ (Q.shared.hub.sockets s).rooms →
        (Q.shared.hub.sockets s).userId = some v := by
  have hexec : ((front depsAB).exec always connectAndType
      ((front depsAB).initial connectAndType siteAB) (plays true 3 ++ plays false 2)).any
      (fun Q => ((front depsAB).step {} (connectAndType false) Q.shared (Q.pcs false)).any fun r =>
        (r.1.typed.drop Q.shared.typed.length).any (·.userId == "a")) = true := by decide
  obtain ⟨Q, hrun, hQ⟩ := Machine.exec_reaches_free hexec
  obtain ⟨⟨s', l'⟩, hs, hany⟩ := (Option.any_eq_true _ _).1 hQ
  obtain ⟨t, ht, -⟩ := List.any_eq_true.1 hany
  exact ⟨Q, s', l', t, hs, ht, (typing_inside ⟨by decide, by decide⟩ (fun _ => ⟨rfl, rfl⟩)
    connectAndType_oneHandshake hrun hs ht).2⟩

end Intaktok.Http
