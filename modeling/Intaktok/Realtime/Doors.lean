import Intaktok.Realtime.RoomDelivery
import Intaktok.Realtime.Handshakes
import Intaktok.Lib.Checkpoints
/-
# Who a socket is, and how it has come into its rooms

`authenticate` (`realtime.gateway.ts:116`) is the only way for a socket to be somebody: it has
presented an access token of that user, and he was `ACTIVE` after that (`authenticated_by_token`).
Into a room it comes as that user, into his personal one, or into one he has been found a member of
(`rooms_by_right`): by `handleConnection` (`:77`) or by `onRoomJoin` (`:213`).
-/

namespace Intaktok.Realtime

open Interleave Tables
open Messages (getActiveMemberIds)

section Step
variable {cfg : AppConfig} {decode : String → Option Jwt} {json : Messages.Json} {c : Choice}
  {h h' : Hub} {k : ServerCall} {l l' : ServerPc} {s u r : String}

/-- An action of a handshake, before the gateway sends on what has been emitted. -/
theorem connect_of_step {hs : Handshake} {pc' : ConnectPc}
    (hstep : (server cfg decode json).step c (.inl (.inl (.connect s hs))) h l =
      some (h', .inl (.inl (.connect pc')))) :
    ∃ pc h₁, l = .inl (.inl (.connect pc)) ∧ ConnectActs cfg decode s hs h pc h₁ pc' ∧
      h' = deliver h.world.events h₁ := by
  obtain ⟨h₁, hacts, rfl⟩ := server_step hstep
  cases hacts with
  | socket hsocket =>
    cases acts_of_socket hsocket with
    | connect hconnect => exact ⟨_, h₁, rfl, acts_of_connect hconnect, rfl⟩

/-- A handshake comes to its user by a token of his. -/
theorem presents_of_step {hs : Handshake}
    (hstep : (server cfg decode json).step c (.inl (.inl (.connect s hs))) h l =
      some (h', .inl (.inl (.connect (.user u))))) : Presents cfg decode hs h.world u := by
  obtain ⟨pc, h₁, -, hacts, -⟩ := connect_of_step hstep
  generalize hpc : ConnectPc.user u = pc' at hacts
  cases hacts with
  | presented hp => cases hpc; exact hp
  | counted => split at hpc <;> cases hpc
  | _ => cases hpc

/-- Nobody becomes anybody but by his handshake, as a user who is `ACTIVE`. -/
theorem becomes_of_step (hs : (server cfg decode json).step c k h l = some (h', l'))
    (hbefore : (h.sockets s).userId ≠ some u) (hu : (h'.sockets s).userId = some u) :
    ∃ hs, k = .inl (.inl (.connect s hs)) ∧ l = .inl (.inl (.connect (.user u))) ∧
      Rooms.ActiveUser h.world.db u := by
  rcases userId_of_step hs with hsame | ⟨s₀, hs₀, sub, rfl, rfl, rfl, rfl⟩
  · exact absurd ((hsame s).symm.trans hu) hbefore
  rw [Hub.sockets_update] at hu
  split at hu
  · rename_i hj
    subst hj
    cases hu
    obtain ⟨pc, h₁, hpc, hacts, -⟩ := connect_of_step hs
    cases hpc
    cases hacts with
    | authenticated hactive => exact ⟨hs₀, rfl, rfl, hactive⟩
  · exact absurd hu hbefore

/-! ## On the way into a room -/

/-- The process takes `s` for the user `u`: the handshake that has authenticated it, or `onRoomJoin`
once it has read `client.data.userId`. -/
inductive Identified (s u : String) : ServerCall → ServerPc → Prop
  | joinUser {hs} :
      Identified s u (.inl (.inl (.connect s hs))) (.inl (.inl (.connect (.joinUser u))))
  | memberships {hs} :
      Identified s u (.inl (.inl (.connect s hs))) (.inl (.inl (.connect (.memberships u))))
  | member {roomId} :
      Identified s u (.inl (.inr (.roomJoin s roomId))) (.inl (.inr (.join (.member (some u)))))

theorem identified_of_step (hs : (server cfg decode json).step c k h l = some (h', l'))
    (hi : Identified s u k l') :
    Identified s u k l ∨ (h.sockets s).userId = some u ∨ (h'.sockets s).userId = some u := by
  cases hi with
  | joinUser =>
    obtain ⟨pc, h₁, rfl, hacts, rfl⟩ := connect_of_step hs
    generalize hpc : ConnectPc.joinUser u = pc' at hacts
    cases hacts with
    | authenticated =>
      cases hpc
      refine .inr (.inr ?_)
      rw [(stays_deliver h.world.events _ s).userId, Hub.sockets_update, if_pos rfl]
    | counted => split at hpc <;> cases hpc
    | _ => cases hpc
  | memberships =>
    obtain ⟨pc, h₁, rfl, hacts, -⟩ := connect_of_step hs
    generalize hpc : ConnectPc.memberships u = pc' at hacts
    cases hacts with
    | joinedUser => cases hpc; exact .inl .joinUser
    | counted => split at hpc <;> cases hpc
    | _ => cases hpc
  | member =>
    obtain ⟨h₁, hacts, -⟩ := server_step hs
    cases hacts with
    | event hevent =>
      cases acts_of_event hevent with
      | @join _ _ pc _ _ hjoin =>
        cases pc with
        | received =>
          simp only [onRoomJoinStep, Option.some.injEq, Prod.mk.injEq, JoinPc.member.injEq] at hjoin
          exact .inr (.inl hjoin.2)
        | member userId =>
          simp only [onRoomJoinStep, Option.some.injEq, Prod.mk.injEq] at hjoin
          obtain ⟨-, hjoin⟩ := hjoin
          split at hjoin
          · split at hjoin <;> cases hjoin
          · cases hjoin
        | _ => cases hjoin

/-- The process is about to take `s` into a room of the chat. -/
inductive Admitting (s r : String) : ServerCall → ServerPc → Prop
  | rooms {hs u ids} : r ∈ ids →
      Admitting s r (.inl (.inl (.connect s hs))) (.inl (.inl (.connect (.joinRooms u ids))))
  | room {roomId} : Admitting s r (.inl (.inr (.roomJoin s roomId))) (.inl (.inr (.join (.join r))))

/-- The process is about to ask whether `u`, for whom it takes `s`, is a member of the room: for all
his rooms in a handshake, for the room of the body in `onRoomJoin`. -/
inductive LooksUp (s u r : String) : ServerCall → ServerPc → Prop
  | memberships {hs} :
      LooksUp s u r (.inl (.inl (.connect s hs))) (.inl (.inl (.connect (.memberships u))))
  | member :
      LooksUp s u r (.inl (.inr (.roomJoin s (.str r)))) (.inl (.inr (.join (.member (some u)))))

theorem LooksUp.identified (h : LooksUp s u r k l) : Identified s u k l := by
  cases h with
  | memberships => exact .memberships
  | member => exact .member

/-- It has found its user in the room. -/
theorem admitting_of_step (hs : (server cfg decode json).step c k h l = some (h', l'))
    (ha : Admitting s r k l') : ∃ u, LooksUp s u r k l ∧ u ∈ getActiveMemberIds h.world.db r := by
  cases ha with
  | @rooms hs₀ u ids hr =>
    obtain ⟨pc, h₁, rfl, hacts, -⟩ := connect_of_step hs
    generalize hpc : ConnectPc.joinRooms u ids = pc' at hacts
    cases hacts with
    | found => cases hpc; exact ⟨u, .memberships, mem_getActiveMemberIds_of_roomsOf hr⟩
    | counted => split at hpc <;> cases hpc
    | _ => cases hpc
  | room =>
    obtain ⟨h₁, hacts, -⟩ := server_step hs
    cases hacts with
    | event hevent =>
      cases acts_of_event hevent with
      | @join _ _ pc _ _ hjoin =>
        cases pc with
        | received => cases hjoin
        | member userId =>
          simp only [onRoomJoinStep, Option.some.injEq, Prod.mk.injEq] at hjoin
          obtain ⟨-, hjoin⟩ := hjoin
          split at hjoin
          · split at hjoin
            · rename_i u hm
              cases hjoin
              exact ⟨u, .member, member_of_assertActiveMember (Option.isNone_iff_eq_none.1 hm)⟩
            · cases hjoin
          · cases hjoin
        | _ => cases hjoin

end Step

/-! ## Runs -/

section Runs
variable {ι : Type} [DecidableEq ι] (cfg : AppConfig) (decode : String → Option Jwt)
  (json : Messages.Json) (D : Discipline Hub ServerCall ServerPc) (calls : ι → ServerCall)
  (hub : Hub)

/-- There was a state with `φ` on the way. -/
abbrev Once (φ : Hub → Prop) (Q : Pool Hub ServerPc ι) : Prop :=
  Met (server cfg decode json) D calls ((server cfg decode json).initial calls hub)
    (fun R => φ R.shared) Q

/-- By what the action of `i` makes `s` the user's. -/
structure LogsIn (s u : String) (R : Pool Hub ServerPc ι) (i : ι) : Prop where
  active : Rooms.ActiveUser R.shared.world.db u
  handshake : ∃ hs, calls i = .inl (.inl (.connect s hs)) ∧
    Once cfg decode json D calls hub (fun h => Presents cfg decode hs h.world u) R

/-- By what right the action of `i` takes `s` into the room: it is the handshake of `s`, and the
room is his user's own; or it is that handshake, or a `room:join` for the room, and has itself found
the user of `s` among the members. -/
inductive ComesIn (s r : String) (R : Pool Hub ServerPc ι) (i : ι) : Prop
  | personal {hs u} : calls i = .inl (.inl (.connect s hs)) → r = userRoom u →
      Once cfg decode json D calls hub (fun h => (h.sockets s).userId = some u) R → ComesIn s r R i
  | member {u} : Acted (server cfg decode json) D calls
      ((server cfg decode json).initial calls hub) i
      (fun S => LooksUp s u r (calls i) (S.pcs i) ∧ u ∈ getActiveMemberIds S.shared.world.db r ∧
        Once cfg decode json D calls hub (fun h => (h.sockets s).userId = some u) S) R →
      ComesIn s r R i

variable {cfg decode json D calls hub} {Q R : Pool Hub ServerPc ι} {i : ι} {s u r : String}

/-- **Nobody is anybody without a token.** In every run a socket that has become a user's has done
so by its handshake, which had presented an access token of his, and he was `ACTIVE` then. -/
theorem authenticated_by_token
    (hrun : Run (server cfg decode json) D calls ((server cfg decode json).initial calls hub) Q)
    (hbefore : (hub.sockets s).userId ≠ some u) (hu : (Q.shared.sockets s).userId = some u) :
    Brought (server cfg decode json) D calls ((server cfg decode json).initial calls hub)
      (fun h => (h.sockets s).userId = some u) (LogsIn cfg decode json D calls hub s u) Q := by
  refine hrun.brought hbefore ?_ ?_ hu
  · intro R i c h' l' hr _ hs hno hyes
    obtain ⟨hs₀, hcall, hpc, hactive⟩ := becomes_of_step hs hno hyes
    refine ⟨hactive, hs₀, hcall, ?_⟩
    refine hr.passed
      (p := fun k l => k = .inl (.inl (.connect s hs₀)) ∧ l = .inl (.inl (.connect (.user u))))
      (φ := fun _ h _ => Presents cfg decode hs₀ h.world u) ?_ ?_ i ⟨hcall, hpc⟩
    · rintro j ⟨hj, hstart⟩
      have hverify : (server cfg decode json).start (calls j) = .inl (.inl (.connect .verify)) := by
        rw [hj]; rfl
      cases hverify.symm.trans hstart
    · rintro c k h l h' _ hs ⟨rfl, rfl⟩
      exact .inr (.inl (presents_of_step hs))
  · intro e h hyes
    have hsock : ((server cfg decode json).env e h).sockets s = h.sockets s :=
      congrFun (sockets_env cfg e h) s
    exact hsock ▸ hyes

theorem not_identified_start (k : ServerCall) :
    ¬ Identified s u k ((server cfg decode json).start k) := by
  generalize hl : (server cfg decode json).start k = l
  intro h
  cases h <;> cases hl

theorem once_identified
    (hrun : Run (server cfg decode json) D calls ((server cfg decode json).initial calls hub) R)
    (hi : Identified s u (calls i) (R.pcs i)) :
    Once cfg decode json D calls hub (fun h => (h.sockets s).userId = some u) R :=
  hrun.passed (p := Identified s u) (φ := fun _ h _ => (h.sockets s).userId = some u)
    (fun _ => not_identified_start _) identified_of_step i hi

theorem not_admitting_start (k : ServerCall) :
    ¬ Admitting s r k ((server cfg decode json).start k) := by
  generalize hl : (server cfg decode json).start k = l
  intro h
  cases h <;> cases hl

theorem comesIn_of_admitting
    (hrun : Run (server cfg decode json) D calls ((server cfg decode json).initial calls hub) R)
    (ha : Admitting s r (calls i) (R.pcs i)) : ComesIn cfg decode json D calls hub s r R i := by
  obtain ⟨S, c, h', l', h₁, hallowed, ⟨u, hlooks, hu⟩, hs, h₂⟩ := hrun.acted (p := Admitting s r)
    (φ := fun k h l => ∃ u, LooksUp s u r k l ∧ u ∈ getActiveMemberIds h.world.db r)
    (fun _ => not_admitting_start _) (fun hs ha => .inr (admitting_of_step hs ha)) i ha
  exact .member ⟨S, c, h', l', h₁, hallowed,
    ⟨hlooks, hu, once_identified h₁ hlooks.identified⟩, hs, h₂⟩

/-- **Rooms by right.** In every run a socket that has come into a room has come as the user it was:
by its handshake into the personal room of that user, or by its handshake or a `room:join` into a
room of which this has found him a member. -/
theorem rooms_by_right
    (hrun : Run (server cfg decode json) D calls ((server cfg decode json).initial calls hub) Q)
    (hbefore : r ∉ (hub.sockets s).rooms) (hr : r ∈ (Q.shared.sockets s).rooms) :
    Brought (server cfg decode json) D calls ((server cfg decode json).initial calls hub)
      (fun h => r ∈ (h.sockets s).rooms) (ComesIn cfg decode json D calls hub s r) Q := by
  refine hrun.brought hbefore ?_ ?_ hr
  · intro R i c h' l' hrun _ hs hno hyes
    have hjoins := (rooms_of_step hs hyes).resolve_left hno
    generalize hk : calls i = k at hjoins
    generalize hl : R.pcs i = l at hjoins
    cases hjoins with
    | personal =>
      refine .personal hk rfl (once_identified (i := i) hrun ?_)
      rw [hk, hl]
      exact .joinUser
    | rooms hin => exact comesIn_of_admitting hrun (by rw [hk, hl]; exact .rooms hin)
    | room => exact comesIn_of_admitting hrun (by rw [hk, hl]; exact .room)
  · intro e h hyes
    have hsock : ((server cfg decode json).env e h).sockets s = h.sockets s :=
      congrFun (sockets_env cfg e h) s
    exact hsock ▸ hyes

end Runs

/-! ### `b` connects and joins his room -/

theorem cameIn : ∃ Q : Pool Hub ServerPc Part,
    Run serverAB Discipline.free leaveAndWrite (serverAB.initial leaveAndWrite hubTokens) Q ∧
      (Q.shared.sockets "sb").userId = some "b" ∧ "r1" ∈ (Q.shared.sockets "sb").rooms := by
  have hexec : (serverAB.exec always leaveAndWrite (serverAB.initial leaveAndWrite hubTokens)
      (steps .connectB 3 ++ steps .joinB 3)).any (fun Q =>
        (Q.shared.sockets "sb").userId == some "b" &&
          (Q.shared.sockets "sb").rooms.contains "r1") = true := by decide
  obtain ⟨Q, hrun, hQ⟩ := Machine.exec_reaches_free hexec
  rw [Bool.and_eq_true, beq_iff_eq, List.contains_iff_mem] at hQ
  exact ⟨Q, hrun, hQ⟩

theorem authenticated_by_token_b : ∃ Q : Pool Hub ServerPc Part,
    (Q.shared.sockets "sb").userId = some "b" ∧
      Brought serverAB Discipline.free leaveAndWrite (serverAB.initial leaveAndWrite hubTokens)
        (fun h => (h.sockets "sb").userId = some "b")
        (LogsIn {} (fun u => some (tokenAccess u)) Messages.noJson Discipline.free leaveAndWrite
          hubTokens "sb" "b") Q := by
  obtain ⟨Q, hrun, hu, -⟩ := cameIn
  exact ⟨Q, hu, authenticated_by_token hrun (nomatch ·) hu⟩

theorem rooms_by_right_b : ∃ Q : Pool Hub ServerPc Part, "r1" ∈ (Q.shared.sockets "sb").rooms ∧
    Brought serverAB Discipline.free leaveAndWrite (serverAB.initial leaveAndWrite hubTokens)
      (fun h => "r1" ∈ (h.sockets "sb").rooms)
      (ComesIn {} (fun u => some (tokenAccess u)) Messages.noJson Discipline.free leaveAndWrite
        hubTokens "sb" "r1") Q := by
  obtain ⟨Q, hrun, -, hr⟩ := cameIn
  exact ⟨Q, hr, rooms_by_right hrun (nomatch ·) hr⟩

end Intaktok.Realtime
