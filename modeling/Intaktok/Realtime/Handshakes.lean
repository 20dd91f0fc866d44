import Intaktok.Realtime.Frames
import Intaktok.Rooms.Rights
/-
# What one action of a handshake, or of a farewell, does

`ConnectActs` lists the actions of `handleConnection`, `LeaveActs` those of `handleDisconnect`: what
each has found, what it does to the hub, and where it goes.
-/

namespace Intaktok.Realtime

open Interleave Tables

/-- The handshake holds an access token of the user: signed by this server, and good for now. -/
def Presents (cfg : AppConfig) (decode : String → Option Jwt) (hs : Handshake) (w : World)
    (u : String) : Prop :=
  ∃ token payload, truthy (hs.token <|> bearerFromHeader hs.authorization) = some token ∧
    decode token = some payload ∧ payload ∈ w.issued ∧ payload.secret = cfg.accessSecret ∧
    payload.type = .access ∧ payload.sub = u ∧ w.now / 1000 < payload.exp

/-- The rooms a user is in. -/
def roomsOf (db : Db) (u : String) : List String :=
  (db.roomMembers.findMany fun m => m.userId == u && m.leftAt.isNone).map (·.roomId)

/-- `coMemberIds`, the rooms of the user being known. -/
def coMembersOf (db : Db) (userId : String) (roomIds : List String) : List String :=
  ((db.roomMembers.findMany fun m =>
    roomIds.contains m.roomId && m.leftAt.isNone && m.userId != userId).map (·.userId)).eraseDups

theorem mem_getActiveMemberIds_of_roomsOf {db : Db} {r u : String} (h : r ∈ roomsOf db u) :
    u ∈ Messages.getActiveMemberIds db r := by
  obtain ⟨m, hm, rfl⟩ := List.mem_map.1 h
  simp only [Table.mem_findMany, Bool.and_eq_true, beq_iff_eq] at hm
  obtain ⟨hin, rfl, hl⟩ := hm
  exact List.mem_map_of_mem (Table.mem_findMany.2 ⟨hin, by simp [hl]⟩)

theorem member_of_assertActiveMember {db : Db} {roomId u : String}
    (ha : Messages.assertActiveMember db roomId u = none) :
    u ∈ Messages.getActiveMemberIds db roomId := by
  unfold Messages.assertActiveMember at ha
  split at ha
  · rename_i m hf
    obtain ⟨hm, hp⟩ := Table.find_some hf
    simp only [Bool.and_eq_true, beq_iff_eq] at hp
    split at ha
    · rename_i hleft
      refine List.mem_map.2 ⟨m, Table.mem_findMany.2 ⟨hm, ?_⟩, hp.2⟩
      simp [hp.1, hleft]
    · cases ha
  · cases ha

theorem mem_coMembersOf {db : Db} {u v : String} {roomIds : List String}
    (h : v ∈ coMembersOf db u roomIds) :
    v ≠ u ∧ ∃ r ∈ roomIds, v ∈ Messages.getActiveMemberIds db r := by
  obtain ⟨m, hm, rfl⟩ := List.mem_map.1 (List.mem_eraseDups.1 h)
  simp only [Table.mem_findMany, Bool.and_eq_true, List.contains_iff_mem, bne_iff_ne] at hm
  obtain ⟨hin, ⟨hr, hl⟩, hne⟩ := hm
  exact ⟨hne, m.roomId, hr, List.mem_map_of_mem (Table.mem_findMany.2 ⟨hin, by simp [hl]⟩)⟩

/-- The actions of `handleConnection` for the socket `id`. -/
inductive ConnectActs (cfg : AppConfig) (decode : String → Option Jwt) (id : String)
    (hs : Handshake) (h : Hub) : ConnectPc → Hub → ConnectPc → Prop
  | refused {pc h₀ message who} : h₀.sockets = h.sockets → h₀.emitted = h.emitted →
      ConnectActs cfg decode id hs h pc (reject h₀ id message) (.rejected who)
  | presented {u} : Presents cfg decode hs h.world u →
      ConnectActs cfg decode id hs h .verify h (.user u)
  | authenticated {u} : Rooms.ActiveUser h.world.db u → ConnectActs cfg decode id hs h (.user u)
      (h.update id fun s => { s with userId := some u }) (.joinUser u)
  | joinedUser {u} : ConnectActs cfg decode id hs h (.joinUser u) (h.join id [userRoom u])
      (.memberships u)
  | found {u} : ConnectActs cfg decode id hs h (.memberships u) h
      (.joinRooms u (roomsOf h.world.db u))
  | foundNone {u} : ConnectActs cfg decode id hs h (.memberships u) h (.presence u .sadd)
  | joined {u ids} : ConnectActs cfg decode id hs h (.joinRooms u ids) (h.join id ids)
      (.presence u .sadd)
  | counts {u q w q'} : Presence.addStep cfg u id h.world q = some (w, q') →
      ConnectActs cfg decode id hs h (.presence u q) { h with world := w } (.presence u q')
  | counted {u q w becameOnline} :
      Presence.addStep cfg u id h.world q = some (w, .done (.ok becameOnline)) →
      ConnectActs cfg decode id hs h (.presence u q)
        ({ h with world := w }.update id fun s => { s with heartbeat := true })
        (if becameOnline then .myRooms u else .accepted u)
  | shares {u} : ConnectActs cfg decode id hs h (.myRooms u) h (.coMembers u (roomsOf h.world.db u))
  | sharesNone {u} : ConnectActs cfg decode id hs h (.myRooms u) h (.accepted u)
  | tells {u ids} : ConnectActs cfg decode id hs h (.coMembers u ids)
      (emitToUsers h (coMembersOf h.world.db u ids) (.presence u .online)) (.accepted u)

theorem acts_of_connect {cfg : AppConfig} {decode : String → Option Jwt} {id : String}
    {hs : Handshake} {h h' : Hub} {pc pc' : ConnectPc}
    (hstep : connectStep cfg decode id hs h pc = some (h', pc')) :
    ConnectActs cfg decode id hs h pc h' pc' := by
  cases pc <;> simp only [connectStep] at hstep
  case verify =>
    split at hstep
    · cases hstep; exact .refused rfl rfl
    · rename_i token htoken
      split at hstep
      · cases hstep; exact .refused rfl rfl
      · rename_i payload hpayload
        split at hstep <;> cases hstep
        · rename_i htype
          obtain ⟨hdecode, hverify⟩ := Option.filter_eq_some_iff.1 hpayload
          simp only [World.verifyAsync, Bool.and_eq_true, List.contains_iff_mem, beq_iff_eq,
            decide_eq_true_eq] at hverify
          exact .presented ⟨token, payload, htoken, hdecode, hverify.1.1, hverify.1.2, htype, rfl,
            hverify.2⟩
        · exact .refused rfl rfl
  case user u =>
    split at hstep <;> cases hstep
    · rename_i ha
      obtain ⟨x, hf, hx⟩ := (Option.any_eq_true _ _).1 ha
      obtain ⟨hmem, hid⟩ := Table.find_some hf
      exact .authenticated ⟨x, hmem, beq_iff_eq.1 hid, beq_iff_eq.1 hx⟩
    · exact .refused rfl rfl
  case joinUser u => cases hstep; exact .joinedUser
  case memberships u =>
    split at hstep <;> cases hstep
    · exact .foundNone
    · exact .found
  case joinRooms u ids => cases hstep; exact .joined
  case presence u q =>
    obtain ⟨⟨w, q'⟩, hadd, he⟩ := Option.map_eq_some_iff.1 hstep
    simp only at he
    split at he <;> cases he
    · exact .counted hadd
    · exact .refused rfl rfl
    · exact .counts hadd
  case myRooms u =>
    split at hstep <;> cases hstep
    · exact .sharesNone
    · exact .shares
  case coMembers u ids => cases hstep; exact .tells
  all_goals cases hstep

/-- The actions of `handleDisconnect` for the socket `id`. -/
inductive LeaveActs (id : String) (h : Hub) : DisconnectPc → Hub → DisconnectPc → Prop
  | left {pc'} : (pc' = .done ∨ ∃ u, pc' = .presence u .srem) → LeaveActs id h .left
      ((h.disconnect id).update id fun s => { s with heartbeat := false }) pc'
  | counts {u q w q' pc'} : Presence.removeStep u id h.world q = some (w, q') →
      (pc' = .done ∨ pc' = .myRooms u ∨ pc' = .presence u q') →
      LeaveActs id h (.presence u q) { h with world := w } pc'
  | shares {u} : LeaveActs id h (.myRooms u) h (.coMembers u (roomsOf h.world.db u))
  | sharesNone {u} : LeaveActs id h (.myRooms u) h .done
  | tells {u ids} : LeaveActs id h (.coMembers u ids)
      (emitToUsers h (coMembersOf h.world.db u ids) (.presence u .offline)) .done

theorem acts_of_leave {id : String} {h h' : Hub} {pc pc' : DisconnectPc}
    (hs : disconnectStep id h pc = some (h', pc')) : LeaveActs id h pc h' pc' := by
  cases pc <;> simp only [disconnectStep] at hs
  case left =>
    cases hs
    refine .left ?_
    split
    · exact .inr ⟨_, rfl⟩
    · exact .inl rfl
  case presence u q =>
    obtain ⟨⟨w, q'⟩, hremove, he⟩ := Option.map_eq_some_iff.1 hs
    cases he
    refine .counts hremove ?_
    split
    · exact .inr (.inl rfl)
    · exact .inl rfl
    · exact .inr (.inr rfl)
  case myRooms u =>
    split at hs <;> cases hs
    · exact .sharesNone
    · exact .shares
  case coMembers u ids => cases hs; exact .tells
  case done => cases hs

end Intaktok.Realtime
