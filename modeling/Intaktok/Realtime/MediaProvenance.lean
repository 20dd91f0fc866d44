import Intaktok.Realtime.MediaReferences
import Intaktok.Messages.Numbers
import Intaktok.Lib.Checkpoints
/-
# How media become visible

Who has not uploaded an object gets it only because something refers to it (`canAccess`,
`media.service.ts:119`). Whoever has stored a reference has uploaded what it refers to
(`MediaReferences.lean`), so media are opened by their uploaders: by a message, by the avatar of
their profile, or by that of a group (`media_published`).
-/

namespace Intaktok.Realtime

open Interleave Tables
open MediaService (inRoom)
open Messages (CreateMessageParams CreatePc)
open Rooms (roomStub roomStubs HasType crew)

/-- Nothing refers to the object. -/
structure Unreferenced (db : Db) (m : String) : Prop where
  messages : ∀ x ∈ db.messages.rows, x.mediaId ≠ some m
  profiles : ∀ x ∈ db.profiles.rows, x.avatarMediaId ≠ some m
  rooms : ∀ x ∈ db.rooms.rows, x.avatarMediaId ≠ some m

section Pool
variable {ι : Type} [DecidableEq ι] (cfg : AppConfig) (decode : String → Option Jwt)
  (json : Messages.Json) (calls : ι → ServerCall) (P₀ : Pool Hub ServerPc ι)

abbrev Reached (P : Pool Hub ServerPc ι) : Prop :=
  Run (server cfg decode json) Discipline.free calls P₀ P

/-- The process serves a request of `u`; a socket speaks for the user it had as the event came
in. -/
inductive Serves (R : Pool Hub ServerPc ι) (i : ι) (u : String) : Prop
  | send {id body} : calls i = .inl (.inr (.messageSend id body)) →
      Met (server cfg decode json) Discipline.free calls P₀
        (fun Q => (Q.shared.sockets id).userId.getD "" = u) R → Serves R i u
  | message {p} : calls i = .inr ⟨.messages, .createMessage p⟩ → p.senderId = u → Serves R i u
  | profile {call} : calls i = .inr ⟨.profile, call⟩ → call.userId = u → Serves R i u
  | createRoom {dto} : calls i = .inr ⟨.rooms, .createRoom u dto⟩ → Serves R i u
  | updateRoom {roomId dto} : calls i = .inr ⟨.roomUpdates, .updateRoom roomId u dto⟩ →
      Serves R i u

/-- `u` sends the message `x` with the object. -/
structure Sends (m : String) (x : Message) (u : String) (R : Pool Hub ServerPc ι) (i : ι) :
    Prop where
  request : Serves cfg decode json calls P₀ R i u
  insert : ∃ p a seq, creation json (calls i) (R.pcs i) = some (p, .insert a seq) ∧
    p.roomId = x.roomId ∧ p.senderId = u ∧ p.mediaId = some m

/-- `u` makes the object the avatar of his profile. -/
structure SetsAvatar (m u : String) (R : Pool Hub ServerPc ι) (i : ι) : Prop where
  request : Serves cfg decode json calls P₀ R i u
  write : ∃ call, calls i = .inr ⟨.profile, call⟩ ∧ R.pcs i = .inr ⟨.profile, .write⟩ ∧
    call.userId = u ∧ call.media = some m

/-- The guard of the process finds `u` in charge of the room. -/
def Admits (i : ι) (roomId u : String) (Q : Pool Hub ServerPc ι) : Prop :=
  Q.pcs i = .inr ⟨.roomUpdates, .guard⟩ ∧
    ∃ x, crew Q.shared.world.db.roomMembers roomId u = some x ∧
      (x.role = .OWNER ∨ x.role = .ADMIN)

/-- `u` makes the object the avatar of a room, as its creator or as one in charge of it. -/
structure SetsRoomAvatar (m roomId u : String) (R : Pool Hub ServerPc ι) (i : ι) : Prop where
  request : Serves cfg decode json calls P₀ R i u
  write : SetsRoom m roomId (calls i) (R.pcs i) u
  charge : ∀ dto, calls i = .inr ⟨.roomUpdates, .updateRoom roomId u dto⟩ →
    Met (server cfg decode json) Discipline.free calls P₀ (Admits i roomId u) R

/-- `u` has published the object to `r`, and still does. -/
inductive Published (m u r : String) (Q : Pool Hub ServerPc ι) : Prop
  | message {x} : x ∈ Q.shared.world.db.messages.rows → x.mediaId = some m → x.senderId = u →
      x.deletedAt = none → inRoom Q.shared.world.db x.roomId r = true →
      Brought (server cfg decode json) Discipline.free calls P₀
        (fun h => x ∈ h.world.db.messages.rows) (Sends cfg decode json calls P₀ m x u) Q →
      Published m u r Q
  | profile {x} : x ∈ Q.shared.world.db.profiles.rows → x.avatarMediaId = some m → x.userId = u →
      Brought (server cfg decode json) Discipline.free calls P₀
        (fun h => ∃ y ∈ h.world.db.profiles.rows, y.userId = u ∧ y.avatarMediaId = some m)
        (SetsAvatar cfg decode json calls P₀ m u) Q →
      Published m u r Q
  | roomAvatar {x} : x ∈ Q.shared.world.db.rooms.rows → x.avatarMediaId = some m →
      x.type = .GROUP → inRoom Q.shared.world.db x.id r = true →
      Brought (server cfg decode json) Discipline.free calls P₀
        (fun h => ∃ y ∈ h.world.db.rooms.rows, y.id = x.id ∧ y.avatarMediaId = some m)
        (SetsRoomAvatar cfg decode json calls P₀ m x.id u) Q →
      Published m u r Q

/-- In the state `Q` on the way to `P` the process `i` has let `r` see the object, which is
`u`'s. -/
structure Opened (m r : String) (i : ι) (P Q : Pool Hub ServerPc ι) (u : String) : Prop where
  granted : ∃ c h' x, (server cfg decode json).step c (calls i) Q.shared (Q.pcs i) =
      some (h', .inr ⟨.media, .url x⟩) ∧
    Run (server cfg decode json) Discipline.free calls
      ⟨h', Function.update Q.pcs i (.inr ⟨.media, .url x⟩)⟩ P
  uploaded : Uploaded Q.shared.world.db m u
  published : u = r ∨ Published cfg decode json calls P₀ m u r Q
  /-- The requests of others do not open it. -/
  served : u = r ∨ ∃ R j, Reached cfg decode json calls P₀ R ∧
    Serves cfg decode json calls P₀ R j u

end Pool

/-! ## What holds throughout -/

section Runs
variable {ι : Type} [DecidableEq ι] {cfg : AppConfig} {decode : String → Option Jwt}
  {json : Messages.Json} {calls : ι → ServerCall} {P₀ P Q R : Pool Hub ServerPc ι} {m : String}

theorem found_env (e : Env) (h : Hub) : Found h.world.db ((env cfg e h).world.db) := by
  rw [db_env]
  exact ⟨.refl _, fun ht => ht⟩

theorem uploaded_run {u : String} (hrun : Reached cfg decode json calls P Q)
    (hu : Uploaded P.shared.world.db m u) : Uploaded Q.shared.world.db m u :=
  hrun.invariant (fun R => Uploaded R.shared.world.db m u) hu
    (fun _ hI _ hs => hI.kept (found_of_step hs).uploads)
    (fun e hI => hI.kept (found_env e _).uploads)

/-- Every process has looked up what it is about to store. -/
theorem checked_run (h0 : ∀ i, Checked json P.shared.world.db (calls i) (P.pcs i))
    (hrun : Reached cfg decode json calls P Q) (i : ι) :
    Checked json Q.shared.world.db (calls i) (Q.pcs i) := by
  refine hrun.invariant (fun R => ∀ i, Checked json R.shared.world.db (calls i) (R.pcs i)) h0 ?_ ?_ i
  · intro R j c h' l' _ hI _ hs i
    by_cases hij : i = j
    · subst hij
      simpa using checked_of_step hs (hI i)
    · simpa [Function.update_of_ne hij] using (hI i).mono (found_of_step hs)
  · exact fun e hI i => (hI i).mono (found_env e _)

theorem ids_run (h0 : ∀ x ∈ P.shared.world.db.media.rows, x.id ≠ "")
    (hrun : Reached cfg decode json calls P Q) :
    ∀ x ∈ Q.shared.world.db.media.rows, x.id ≠ "" := by
  have hkept : ∀ {db db' : Db}, Found db db' → (∀ x ∈ db.media.rows, x.id ≠ "") →
      ∀ x ∈ db'.media.rows, x.id ≠ "" := by
    intro db db' hf hids x hx
    rcases hf.uploads.ids x hx with hne | ⟨y, hy, hyx⟩
    · exact hne
    · exact hyx ▸ hids y hy
  exact hrun.invariant (fun R => ∀ x ∈ R.shared.world.db.media.rows, x.id ≠ "") h0
    (fun _ hI _ hs => hkept (found_of_step hs) hI) (fun e hI => hkept (found_env e _) hI)

/-- The object is the avatar of groups only. -/
theorem groups_run (h0 : ∀ x ∈ roomStubs P.shared.world.db, x.avatarMediaId ≠ some m)
    (hcheck : ∀ i, Checked json P.shared.world.db (calls i) (P.pcs i)) (hne : m ≠ "")
    (hrun : Reached cfg decode json calls P Q) :
    ∀ x ∈ roomStubs Q.shared.world.db, x.avatarMediaId = some m → x.type = .GROUP := by
  refine hrun.invariant (fun R => ∀ x ∈ roomStubs R.shared.world.db, x.avatarMediaId = some m →
    x.type = .GROUP) (fun x hx hm => absurd hm (h0 x hx)) ?_ ?_
  · intro R i c h' l' hr hI _ hs x hx hm
    rcases roomAvatar_of_step hs (checked_run hcheck hr i) hx hm hne with
      ⟨y, hy, -, htype, hym⟩ | ⟨htype, -⟩
    · exact htype ▸ hI y hy hym
    · exact htype
  · intro R e hI
    show ∀ x ∈ roomStubs (env cfg e R.shared).world.db, x.avatarMediaId = some m → x.type = .GROUP
    rwa [db_env]

/-! ## Who serves whom -/

theorem sender_of_step {c : Choice} {h h' : Hub} {id : String} {body : Option SendPayload}
    {l : ServerPc} {userId : Option String} {pc : CreatePc}
    (hs : (server cfg decode json).step c (.inl (.inr (.messageSend id body))) h l =
      some (h', .inl (.inr (.send (.createMessage userId pc))))) :
    (l = .inl (.inr (.send .received)) ∧ (h.sockets id).userId = userId) ∨
      ∃ pc₀, l = .inl (.inr (.send (.createMessage userId pc₀))) := by
  obtain ⟨h₁, hacts, -⟩ := server_step hs
  cases hacts with
  | @event _ pc₁ _ _ hevent =>
    generalize hl' : EventPc.send (.createMessage userId pc) = l' at hevent
    cases acts_of_event hevent with
    | send hacts =>
      cases hl'
      generalize hpc' : SendPc.createMessage userId pc = pc' at hacts
      cases hacts with
      | refused _ | thrown => cases hpc'
      | received hb => cases hpc'; exact .inl ⟨rfl, rfl⟩
      | @create v pc₀ _ pc₃ hcreate =>
        have hv : sendReturns v pc₃ = .createMessage userId pc := hpc'.symm
        unfold sendReturns at hv
        split at hv <;> cases hv
        exact .inr ⟨pc₀, rfl⟩

/-- The event of `i` is coming in, from a socket of `userId`. -/
def Incoming (i : ι) (id : String) (userId : Option String) (R : Pool Hub ServerPc ι) : Prop :=
  R.pcs i = .inl (.inr (.send .received)) ∧ (R.shared.sockets id).userId = userId

/-- An event of a socket speaks for the user the socket had as it came in. -/
theorem sender_run {D : Discipline Hub ServerCall ServerPc} {hub : Hub} {i : ι} {id : String}
    {body : Option SendPayload} (hcall : calls i = .inl (.inr (.messageSend id body)))
    (hrun : Run (server cfg decode json) D calls ((server cfg decode json).initial calls hub) Q)
    {userId : Option String} {pc : CreatePc}
    (hpc : Q.pcs i = .inl (.inr (.send (.createMessage userId pc)))) :
    Acted (server cfg decode json) D calls ((server cfg decode json).initial calls hub) i
      (Incoming i id userId) Q := by
  refine hrun.acted
    (p := fun k l => k = .inl (.inr (.messageSend id body)) ∧
      ∃ pc, l = .inl (.inr (.send (.createMessage userId pc))))
    (φ := fun _ h l => l = .inl (.inr (.send .received)) ∧ (h.sockets id).userId = userId) ?_ ?_ i
    ⟨hcall, pc, hpc⟩
  · rintro j ⟨hj, _, hstart⟩
    have hreceived : (server cfg decode json).start (calls j) = .inl (.inr (.send .received)) := by
      rw [hj]; rfl
    cases hreceived.symm.trans hstart
  · rintro c k h l h' _ hs ⟨rfl, pc', rfl⟩
    exact (sender_of_step hs).symm.imp_left fun hbefore => ⟨rfl, hbefore⟩

/-- A creation that `createSystemMessage` has not asked for serves whom it names. -/
theorem serves_of_client {hub : Hub}
    (hrun : Reached cfg decode json calls ((server cfg decode json).initial calls hub) R) {i : ι}
    {p : CreateMessageParams} {pc : CreatePc}
    (hk : creation json (calls i) (R.pcs i) = some (p, pc)) (hsys : p.isSystem = false) :
    Serves cfg decode json calls ((server cfg decode json).initial calls hub) R i p.senderId := by
  rcases client_of_creation hk hsys with ⟨id, body, userId, hcall, hl, rfl⟩ | ⟨hcall, -⟩
  · obtain ⟨S, h₁, ⟨-, hu⟩, h₂⟩ := (sender_run hcall hrun hl).met
    exact .send hcall ⟨S, h₁, congrArg (·.getD "") hu, h₂⟩
  · exact .message hcall rfl

/-- Whoever sends an object is whom the process serves. -/
theorem serves_of_creation {hub : Hub}
    (hclient : ∀ i p, calls i = .inr ⟨.messages, .createMessage p⟩ → p.isSystem = false)
    (hrun : Reached cfg decode json calls ((server cfg decode json).initial calls hub) Q) {i : ι}
    {p : CreateMessageParams} {pc : CreatePc}
    (hk : creation json (calls i) (Q.pcs i) = some (p, pc)) (hm : p.mediaId ≠ none) :
    p.isSystem = false ∧ Serves cfg decode json calls ((server cfg decode json).initial calls hub) Q
      i p.senderId := by
  have hsys : p.isSystem = false := by
    cases hsys : p.isSystem with
    | false => rfl
    | true =>
      obtain ⟨r, actorId, payload, rfl⟩ := systemParams_of_creation (hclient i) hk hsys
      exact absurd rfl hm
  exact ⟨hsys, serves_of_client hrun hk hsys⟩

/-- What `updateRoom` has passed the guard with. -/
def Guarded (cfg : AppConfig) (decode : String → Option Jwt) (json : Messages.Json)
    (calls : ι → ServerCall) (P : Pool Hub ServerPc ι) (i : ι) (roomId u : String)
    (Q : Pool Hub ServerPc ι) : Rooms.UpdatePc → Prop
  | .room role => Met (server cfg decode json) Discipline.free calls P (fun R =>
      R.pcs i = .inr ⟨.roomUpdates, .guard⟩ ∧
        ∃ x, crew R.shared.world.db.roomMembers roomId u = some x ∧ x.role = role) Q
  | .avatar _ _ | .update _ =>
    Met (server cfg decode json) Discipline.free calls P (Admits i roomId u) Q
  | _ => True

theorem Guarded.trans {i : ι} {roomId u : String} {pc : Rooms.UpdatePc}
    (h : Guarded cfg decode json calls P i roomId u Q pc)
    (hrun : Reached cfg decode json calls Q R) :
    Guarded cfg decode json calls P i roomId u R pc := by
  cases pc with
  | room | avatar | update => exact Met.trans h hrun
  | _ => trivial

/-- An avatar is set by somebody in charge, as the guard has found him. -/
theorem guarded_run {i : ι} {roomId u : String} {dto : Rooms.UpdateRoomDto}
    (hcall : calls i = .inr ⟨.roomUpdates, .updateRoom roomId u dto⟩)
    (h0 : P.pcs i = .inr ⟨.roomUpdates, .guard⟩)
    (hrun : Reached cfg decode json calls P Q) {pc : Rooms.UpdatePc}
    (hpc : Q.pcs i = .inr ⟨.roomUpdates, pc⟩) :
    Guarded cfg decode json calls P i roomId u Q pc := by
  refine hrun.invariant (fun R => ∀ pc, R.pcs i = .inr ⟨.roomUpdates, pc⟩ →
    Guarded cfg decode json calls P i roomId u R pc) ?_ ?_ ?_ pc hpc
  · intro pc hpc
    rw [h0] at hpc
    cases hpc
    trivial
  · intro R j c h' l' hr hI ha hs pc hpc
    have hmove := Run.refl.move ha hs
    by_cases hij : i = j
    · subst hij
      simp only [Function.update_self] at hpc
      subst hpc
      rw [hcall] at hs
      obtain ⟨h₁, hacts, -⟩ := server_step hs
      generalize hl : R.pcs i = l at hacts
      cases hacts with
      | @service _ _ pc₀ _ w hservice =>
        refine Guarded.trans ?_ hmove
        have hold := hI pc₀ hl
        cases Rooms.acts_of_updateRoom hservice with
        | entered hcrew => exact hr.met ⟨hl, _, hcrew, rfl⟩
        | group _ hrole =>
          obtain ⟨S, h₁, ⟨hguard, x, hx, hxr⟩, h₂⟩ := hold
          have hadmits : Admits i roomId u S := ⟨hguard, x, hx, hxr ▸ hrole⟩
          unfold Rooms.afterChecks
          split <;> exact ⟨S, h₁, hadmits, h₂⟩
        | owned => exact hold
        | _ => trivial
    · simp only [Function.update_of_ne hij] at hpc
      exact (hI pc hpc).trans hmove
  · exact fun e hI pc hpc => (hI pc hpc).trans (Run.refl.env e)

/-! ## What refers to the object -/

section Brought
variable {hub : Hub} {u r : String}

omit [DecidableEq ι] in
theorem initial_checked (cfg : AppConfig) (decode : String → Option Jwt) (json : Messages.Json)
    (calls : ι → ServerCall) (hub : Hub) (i : ι) :
    Checked json hub.world.db (calls i)
      (((server cfg decode json).initial calls hub).pcs i) :=
  checked_start cfg decode hub.world.db (calls i)

/-- A message with the object has been sent by who has uploaded it. -/
theorem message_brought (hclient : ∀ i p, calls i = .inr ⟨.messages, .createMessage p⟩ →
    p.isSystem = false) (hun : Unreferenced hub.world.db m) (hne : m ≠ "")
    (hrun : Reached cfg decode json calls ((server cfg decode json).initial calls hub) Q)
    (hu : Uploaded Q.shared.world.db m u) {x : Message}
    (hx : x ∈ Q.shared.world.db.messages.rows) (hm : x.mediaId = some m) :
    x.senderId = u ∧ x.deletedAt = none ∧
      Brought (server cfg decode json) Discipline.free calls
        ((server cfg decode json).initial calls hub) (fun h => x ∈ h.world.db.messages.rows)
        (Sends cfg decode json calls ((server cfg decode json).initial calls hub) m x u) Q := by
  have hb : Brought (server cfg decode json) Discipline.free calls
      ((server cfg decode json).initial calls hub) (fun h => x ∈ h.world.db.messages.rows)
      (fun R i => Sends cfg decode json calls ((server cfg decode json).initial calls hub) m x
        x.senderId R i ∧ x.deletedAt = none ∧ Uploaded R.shared.world.db m x.senderId) Q := by
    refine hrun.brought (fun hx₀ => hun.messages x hx₀ hm) ?_ ?_ hx
    · intro R i c h' l' hr _ hs hno hyes
      rcases sends_of_step hs hyes hm with hold | ⟨p, a, seq, type, hk, rfl⟩
      · exact absurd hold hno
      have hpm : p.mediaId = some m := hm
      obtain ⟨hsys, hserves⟩ := serves_of_creation hclient hr hk (by simp [hpm])
      refine ⟨⟨hserves, p, a, seq, hk, rfl, rfl, hm⟩, rfl, ?_⟩
      rcases (checked_run (initial_checked cfg decode json calls hub) hr i).1 p _ hk with h | hv
      · rw [hsys] at h; cases h
      · exact hv m (truthy_eq_some.2 ⟨hpm, hne⟩)
    · intro e h hyes
      have hdb : ((server cfg decode json).env e h).world.db = h.world.db := db_env cfg e h
      exact hdb ▸ hyes
  obtain ⟨R, i, -, ⟨-, hdel, hup⟩, hrest⟩ := hb.happened
  obtain rfl := (uploaded_run hrest hup).unique hu
  exact ⟨rfl, hdel, hb.imp fun _ h => h.1⟩

/-- A profile with the object as avatar is that of who has uploaded it. -/
theorem avatar_brought (hun : Unreferenced hub.world.db m) (hne : m ≠ "")
    (hrun : Reached cfg decode json calls ((server cfg decode json).initial calls hub) Q)
    (hu : Uploaded Q.shared.world.db m u) {x : Profile}
    (hx : x ∈ Q.shared.world.db.profiles.rows) (hm : x.avatarMediaId = some m) :
    x.userId = u ∧ Brought (server cfg decode json) Discipline.free calls
      ((server cfg decode json).initial calls hub)
      (fun h => ∃ y ∈ h.world.db.profiles.rows, y.userId = u ∧ y.avatarMediaId = some m)
      (SetsAvatar cfg decode json calls ((server cfg decode json).initial calls hub) m u) Q := by
  have hb : Brought (server cfg decode json) Discipline.free calls
      ((server cfg decode json).initial calls hub)
      (fun h => ∃ y ∈ h.world.db.profiles.rows, y.userId = x.userId ∧ y.avatarMediaId = some m)
      (fun R i => SetsAvatar cfg decode json calls ((server cfg decode json).initial calls hub) m
        x.userId R i ∧ Uploaded R.shared.world.db m x.userId) Q := by
    refine hrun.brought ?_ ?_ ?_ ⟨x, hx, rfl, hm⟩
    · rintro ⟨y, hy, -, hym⟩
      exact hun.profiles y hy hym
    · rintro R i c h' l' hr - hs hno ⟨y, hy, hyu, hym⟩
      rcases avatar_of_step hs hy hym hne with ⟨z, hz, hzu, hzm⟩ | ⟨call, hk, hl, hcu, hcm⟩
      · exact absurd ⟨z, hz, hzu.trans hyu, hzm⟩ hno
      have hcheck := (checked_run (initial_checked cfg decode json calls hub) hr i).2
      rw [hk, hl] at hcheck
      have hcx : call.userId = x.userId := hcu.trans hyu
      exact ⟨⟨.profile hk hcx, call, hk, hl, hcx, hcm⟩, hcx ▸ hcheck m hcm⟩
    · intro e h hyes
      have hdb : ((server cfg decode json).env e h).world.db = h.world.db := db_env cfg e h
      exact hdb ▸ hyes
  obtain ⟨R, i, -, ⟨-, hup⟩, hrest⟩ := hb.happened
  obtain rfl := (uploaded_run hrest hup).unique hu
  exact ⟨rfl, hb.imp fun _ h => h.1⟩

/-- A room with the object as avatar has it from who has uploaded it. -/
theorem roomAvatar_brought (hun : Unreferenced hub.world.db m) (hne : m ≠ "")
    (hrun : Reached cfg decode json calls ((server cfg decode json).initial calls hub) Q)
    (hu : Uploaded Q.shared.world.db m u) {x : Room}
    (hx : x ∈ Q.shared.world.db.rooms.rows) (hm : x.avatarMediaId = some m) :
    x.type = .GROUP ∧ Brought (server cfg decode json) Discipline.free calls
      ((server cfg decode json).initial calls hub)
      (fun h => ∃ y ∈ h.world.db.rooms.rows, y.id = x.id ∧ y.avatarMediaId = some m)
      (SetsRoomAvatar cfg decode json calls ((server cfg decode json).initial calls hub) m x.id u)
      Q := by
  have hcheck := initial_checked cfg decode json calls hub
  have hnone : ∀ y ∈ roomStubs hub.world.db, y.avatarMediaId ≠ some m := by
    intro y hy
    obtain ⟨z, hz, rfl⟩ := List.mem_map.1 hy
    exact hun.rooms z hz
  have hb : Brought (server cfg decode json) Discipline.free calls
      ((server cfg decode json).initial calls hub)
      (fun h => ∃ y ∈ h.world.db.rooms.rows, y.id = x.id ∧ y.avatarMediaId = some m)
      (fun R i => ∃ v, SetsRoomAvatar cfg decode json calls
        ((server cfg decode json).initial calls hub) m x.id v R i ∧
          Uploaded R.shared.world.db m v) Q := by
    refine hrun.brought ?_ ?_ ?_ ⟨x, hx, rfl, hm⟩
    · rintro ⟨y, hy, -, hym⟩
      exact hun.rooms y hy hym
    · rintro R i c h' l' hr - hs hno ⟨y, hy, hyid, hym⟩
      rcases roomAvatar_of_step hs (checked_run hcheck hr i) (Rooms.roomStub_mem hy) hym hne with
        ⟨z, hz, hzid, -, hzm⟩ | ⟨-, v, hsets, hup⟩
      · obtain ⟨a, ha, rfl⟩ := List.mem_map.1 hz
        exact absurd ⟨a, ha, hzid.trans hyid, hzm⟩ hno
      have hsets' : SetsRoom m x.id (calls i) (R.pcs i) v := hyid ▸ hsets
      refine ⟨v, ⟨?_, hsets', ?_⟩, hup⟩
      · generalize hk : calls i = k at hsets'
        generalize R.pcs i = l at hsets'
        cases hsets' with
        | created => exact .createRoom hk
        | updated => exact .updateRoom hk
      · intro dto hk
        have h0 : ((server cfg decode json).initial calls hub).pcs i =
            .inr ⟨.roomUpdates, .guard⟩ := by
          simp only [Machine.initial, hk]
          rfl
        rw [hk] at hsets'
        generalize hl : R.pcs i = l at hsets'
        cases hsets' with
        | updated => exact guarded_run hk h0 hr hl
    · intro e h hyes
      have hdb : ((server cfg decode json).env e h).world.db = h.world.db := db_env cfg e h
      exact hdb ▸ hyes
  refine ⟨groups_run hnone hcheck hne hrun (roomStub x) (Rooms.roomStub_mem hx) hm, hb.imp ?_⟩
  rintro R i hrest ⟨v, hsets, hup⟩
  rwa [← (uploaded_run hrest hup).unique hu]

end Brought

end Runs

/-! ## `getMedia` -/

/-- Why `canAccess` says yes. -/
inductive Grants (db : Db) (m r : String) (x : Media) : MediaService.Pc → Prop
  | uploader : x ∈ db.media.rows → x.id = m → x.uploaderId = r → Grants db m r x .media
  | message {y} : y ∈ db.messages.rows → y.mediaId = some x.id → inRoom db y.roomId r = true →
      Grants db m r x (.message x)
  | avatar {y} : y ∈ db.profiles.rows → y.avatarMediaId = some x.id → Grants db m r x (.avatar x)
  | roomAvatar {y} : y ∈ db.rooms.rows → y.avatarMediaId = some x.id → inRoom db y.id r = true →
      Grants db m r x (.roomAvatar x)

theorem grants_of_step {cfg : AppConfig} {c : Choice} {m r : String} {w w' : World}
    {pc : MediaService.Pc} {x : Media}
    (h : MediaService.step cfg c (.getMedia m r) w pc = some (w', .url x)) :
    Grants w.db m r x pc := by
  cases pc <;> simp only [MediaService.step, MediaService.getStep, Option.some.injEq,
    Prod.mk.injEq] at h
  case media =>
    replace h := h.2
    split at h
    · cases h
    · rename_i y hf
      obtain ⟨hy, hid⟩ := Table.find_some hf
      split at h <;> cases h
      rename_i hu
      exact .uploader hy (by simpa using hid) hu
  case message y =>
    replace h := h.2
    split at h <;> cases h
    rename_i hshared
    obtain ⟨z, hf⟩ := Option.isSome_iff_exists.1 hshared
    obtain ⟨hz, hp⟩ := Table.find_some hf
    rw [Bool.and_eq_true, beq_iff_eq] at hp
    exact .message hz hp.1 hp.2
  case avatar y =>
    replace h := h.2
    split at h <;> cases h
    rename_i havatar
    obtain ⟨z, hf⟩ := Option.isSome_iff_exists.1 havatar
    obtain ⟨hz, hp⟩ := Table.find_some hf
    exact .avatar hz (beq_iff_eq.1 hp)
  case roomAvatar y =>
    replace h := h.2
    split at h <;> cases h
    rename_i havatar
    obtain ⟨z, hf⟩ := Option.isSome_iff_exists.1 havatar
    obtain ⟨hz, hp⟩ := Table.find_some hf
    rw [Bool.and_eq_true, beq_iff_eq] at hp
    exact .roomAvatar hz hp.1 hp.2
  all_goals simp at h

/-- A `getMedia` answers from `.url` only. -/
theorem url_of_done {cfg : AppConfig} {c : Choice} {m r : String} {w w' : World}
    {pc : MediaService.Pc} {res : MediaService.Result}
    (h : MediaService.step cfg c (.getMedia m r) w pc = some (w', .done (.ok res))) :
    ∃ x, pc = .url x := by
  cases pc <;> simp only [MediaService.step, MediaService.getStep, Option.some.injEq,
    Prod.mk.injEq] at h
  case url x => exact ⟨x, rfl⟩
  case media =>
    replace h := h.2
    split at h
    · cases h
    · split at h <;> cases h
  case message y => replace h := h.2; split at h <;> cases h
  case avatar y => replace h := h.2; split at h <;> cases h
  case roomAvatar y => replace h := h.2; split at h <;> cases h
  all_goals cases h

/-- The process is past its check, or has answered. -/
def Cleared : ServerPc → Prop
  | .inr ⟨.media, .url _⟩ | .inr ⟨.media, .done (.ok _)⟩ => True
  | _ => False

section Granted
variable {ι : Type} [DecidableEq ι] (cfg : AppConfig) (decode : String → Option Jwt)
  (json : Messages.Json) (calls : ι → ServerCall) (P₀ : Pool Hub ServerPc ι) (m r : String) (i : ι)

/-- On the way to `P` the process has passed its check. -/
def Granted (P : Pool Hub ServerPc ι) : Prop :=
  ∃ Q c h' x pc, Reached cfg decode json calls P₀ Q ∧ Q.pcs i = .inr ⟨.media, pc⟩ ∧
    Grants Q.shared.world.db m r x pc ∧
    (server cfg decode json).step c (calls i) Q.shared (Q.pcs i) =
      some (h', .inr ⟨.media, .url x⟩) ∧
    Run (server cfg decode json) Discipline.free calls
      ⟨h', Function.update Q.pcs i (.inr ⟨.media, .url x⟩)⟩ P

variable {cfg decode json calls P₀ m r i} {P Q : Pool Hub ServerPc ι}

theorem Granted.trans (h : Granted cfg decode json calls P₀ m r i P)
    (hrun : Reached cfg decode json calls P Q) : Granted cfg decode json calls P₀ m r i Q := by
  obtain ⟨R, c, h', x, pc, hR, hpc, hgrants, hstep, hrest⟩ := h
  exact ⟨R, c, h', x, pc, hR, hpc, hgrants, hstep, hrest.trans hrun⟩

theorem granted_run (hcall : calls i = .inr ⟨.media, .getMedia m r⟩) (h0 : ¬ Cleared (P₀.pcs i))
    (hrun : Reached cfg decode json calls P₀ P) (hP : Cleared (P.pcs i)) :
    Granted cfg decode json calls P₀ m r i P := by
  refine hrun.invariant (fun R => Cleared (R.pcs i) → Granted cfg decode json calls P₀ m r i R)
    (fun h => absurd h h0) ?_ (fun e hI hR => (hI hR).trans (Run.refl.env e)) hP
  intro R j c h' l' hr hI ha hs hR
  have hmove := Run.refl.move ha hs
  by_cases hij : i = j
  · subst hij
    simp only [Function.update_self] at hR
    have hs' := hs
    rw [hcall] at hs'
    obtain ⟨h₁, hacts, -⟩ := server_step hs'
    generalize hl : R.pcs i = l at hacts
    cases hacts with
    | @service _ _ pc pc' w hservice =>
      cases pc' with
      | url x => exact ⟨R, c, h', x, pc, hr, hl, grants_of_step hservice, hs, .refl⟩
      | done res =>
        cases res with
        | ok res =>
          obtain ⟨x, rfl⟩ := url_of_done hservice
          have hclear : Cleared (R.pcs i) := by rw [hl]; trivial
          exact (hI hclear).trans hmove
        | error e => exact hR.elim
      | _ => exact hR.elim
  · simp only [Function.update_of_ne hij] at hR
    exact (hI hR).trans hmove

/-- Somebody's publication is a request of his. -/
theorem Published.served {u : String} (h : Published cfg decode json calls P₀ m u r Q) :
    ∃ R j, Reached cfg decode json calls P₀ R ∧ Serves cfg decode json calls P₀ R j u := by
  cases h with
  | message _ _ _ _ _ hb =>
    obtain ⟨R, j, hR, hact, -⟩ := hb.happened
    exact ⟨R, j, hR, hact.request⟩
  | profile _ _ _ hb =>
    obtain ⟨R, j, hR, hact, -⟩ := hb.happened
    exact ⟨R, j, hR, hact.request⟩
  | roomAvatar _ _ _ _ hb =>
    obtain ⟨R, j, hR, hact, -⟩ := hb.happened
    exact ⟨R, j, hR, hact.request⟩

end Granted

section Provenance
variable {ι : Type} [DecidableEq ι] (cfg : AppConfig) (decode : String → Option Jwt)
  (json : Messages.Json) {calls : ι → ServerCall} {hub : Hub} {P : Pool Hub ServerPc ι}
  {m r : String} {i : ι} {res : MediaService.Result}

/-- **Media are published by their uploaders.** In every run from a state in which nothing refers
to the object, who gets it has uploaded it, or the uploader has published it and it is published
still as `canAccess` looks. -/
theorem media_published (hids : ∀ x ∈ hub.world.db.media.rows, x.id ≠ "")
    (hun : Unreferenced hub.world.db m)
    (hclient : ∀ i p, calls i = .inr ⟨.messages, .createMessage p⟩ → p.isSystem = false)
    (hrun : Reached cfg decode json calls ((server cfg decode json).initial calls hub) P)
    (hcall : calls i = .inr ⟨.media, .getMedia m r⟩)
    (hdone : P.pcs i = .inr ⟨.media, .done (.ok res)⟩) :
    ∃ Q u, Reached cfg decode json calls ((server cfg decode json).initial calls hub) Q ∧
      Opened cfg decode json calls ((server cfg decode json).initial calls hub) m r i P Q u := by
  have h0 : ¬ Cleared (((server cfg decode json).initial calls hub).pcs i) := by
    simp only [Machine.initial, hcall]
    exact id
  obtain ⟨Q, c, h', x, pc, hQ, hpc, hgrants, hstep, hrest⟩ :=
    granted_run hcall h0 hrun (by rw [hdone]; trivial)
  have hcheck := (checked_run (initial_checked cfg decode json calls hub) hQ i).2
  rw [hcall, hpc] at hcheck
  have hne : Uploaded Q.shared.world.db m x.uploaderId → m ≠ "" := by
    rintro ⟨y, hy, rfl, -⟩
    exact ids_run hids hQ y hy
  have hopen : Uploaded Q.shared.world.db m x.uploaderId ∧ (x.uploaderId = r ∨
      Published cfg decode json calls ((server cfg decode json).initial calls hub) m x.uploaderId
        r Q) := by
    cases hgrants with
    | uploader hx hid hu => exact ⟨⟨x, hx, hid, rfl⟩, .inl hu⟩
    | @message y hy hm hin =>
      obtain ⟨rfl, hup⟩ := hcheck
      obtain ⟨hsender, hdel, hb⟩ := message_brought hclient hun (hne hup) hQ hup hy hm
      exact ⟨hup, .inr (.message hy hm hsender hdel hin hb)⟩
    | @avatar y hy hm =>
      obtain ⟨rfl, hup⟩ := hcheck
      obtain ⟨hu, hb⟩ := avatar_brought hun (hne hup) hQ hup hy hm
      exact ⟨hup, .inr (.profile hy hm hu hb)⟩
    | @roomAvatar y hy hm hin =>
      obtain ⟨rfl, hup⟩ := hcheck
      obtain ⟨htype, hb⟩ := roomAvatar_brought hun (hne hup) hQ hup hy hm
      exact ⟨hup, .inr (.roomAvatar hy hm htype hin hb)⟩
  exact ⟨Q, x.uploaderId, hQ, ⟨c, h', x, hstep, hrest⟩, hopen.1, hopen.2,
    hopen.2.imp_right Published.served⟩

end Provenance

/-! ### A picture in a room -/

def hubPicture : Hub where
  world := { Messages.worldR1 with
    db.media := ⟨[{ id := "p1", uploaderId := "a", storageKey := "k", mimeType := "image/png",
                    byteSize := 1 }], by decide⟩ }

/-- `a` sends the picture, `b` looks at it. -/
inductive Share where
  | send | look
deriving DecidableEq

def sendPicture : CreateMessageParams :=
  { roomId := "r1", senderId := "a", type := some .IMAGE, mediaId := some "p1" }

def shareCalls : Share → ServerCall
  | .send => .inr ⟨.messages, .createMessage sendPicture⟩
  | .look => .inr ⟨.media, .getMedia "p1" "b"⟩

def looked (l : ServerPc) : Bool :=
  match l with
  | .inr ⟨.media, .done (.ok _)⟩ => true
  | _ => false

theorem looked_iff {l : ServerPc} (h : looked l = true) :
    ∃ res, l = .inr ⟨.media, .done (.ok res)⟩ := by
  unfold looked at h
  split at h
  · exact ⟨_, rfl⟩
  · cases h

/-- `b` sees the picture, because `a` has sent it. -/
theorem media_published_picture : ∃ (P Q : Pool Hub ServerPc Share) (u : String),
    looked (P.pcs .look) = true ∧ Opened {} (fun _ => none) Messages.noJson shareCalls
      ((server {} (fun _ => none) Messages.noJson).initial shareCalls hubPicture) "p1" "b" .look
      P Q u := by
  have hexec : ((server {} (fun _ => none) Messages.noJson).exec always shareCalls
      ((server {} (fun _ => none) Messages.noJson).initial shareCalls hubPicture)
      (List.replicate 8 (.step .send { id := "m1" }) ++ List.replicate 3 (.step .look {}))).any
        (fun P => looked (P.pcs .look)) = true := by decide
  obtain ⟨P, hrun, hP⟩ := Machine.exec_reaches_free hexec
  obtain ⟨res, hdone⟩ := looked_iff hP
  have hclient : ∀ i p, shareCalls i = .inr ⟨.messages, .createMessage p⟩ → p.isSystem = false := by
    rintro i p h
    cases i <;> cases h
    rfl
  obtain ⟨Q, u, -, hopened⟩ := media_published {} (fun _ => none) Messages.noJson (by decide)
    ⟨by decide, by decide, by decide⟩ hclient hrun (i := .look) rfl hdone
  exact ⟨P, Q, u, hP, hopened⟩

end Intaktok.Realtime
