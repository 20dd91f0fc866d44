import Intaktok.Realtime.Frames
import Intaktok.Realtime.BlockedSockets
import Intaktok.Messages.Numbers
import Intaktok.Presence.Accuracy
/-
# Ghost sockets

`handleConnection` and `handleDisconnect` of one socket are not serialised. `handleDisconnect` looks
once for what `handleConnection` leaves at its awaits (the user, the entry in the presence set, the
heartbeat), and `handleConnection` never looks whether the socket is still there. Where the
disconnect begins after the heartbeat is set, nothing of the socket stays (`no_ghost`); where it
comes before, the user stays online with a heartbeat nobody stops (`ghost`).
-/

namespace Intaktok

open Interleave Tables

/-! ## What the handlers do to the sets -/

namespace Presence

/-- The socket is in a set under the key that has not expired. -/
def Stored (w : World) (userId socketId : String) : Prop :=
  ∃ p ∈ w.redis, p.1 = key userId ∧ p.2.live w.now = true ∧
    ∃ members, p.2.value = .set members ∧ socketId ∈ members

/-- The keys of presence hold sets. -/
def HoldSets (w : World) : Prop :=
  ∀ p ∈ w.redis, p.2.live w.now = true → ∀ u, p.1 = key u → ∃ members, p.2.value = .set members

theorem stored_of_online {w : World} {u x : String} (h : x ∈ online w u) : Stored w u x := by
  unfold online at h
  split at h
  · rename_i members hl
    obtain ⟨e, he, hv⟩ := Option.map_eq_some_iff.1 hl
    obtain ⟨hmem, hlive⟩ := KeyValue.entry_some he
    exact ⟨(key u, e), hmem, rfl, hlive, members, hv, h⟩
  · cases h

/-- The keys still hold sets, and nothing is new in them but what `p` says. -/
structure Within (w w' : World) (p : String → String → Prop) : Prop where
  sets : HoldSets w'
  stored : ∀ u x, Stored w' u x → Stored w u x ∨ p u x

section Commands
variable {w w' : World} {v m : String} {p : String → String → Prop}

theorem within_refl (hw : HoldSets w) : Within w w p := ⟨hw, fun _ _ => .inl⟩

theorem within_put {members : List String} {ttl : Option Nat} (hw : HoldSets w)
    (hm : ∀ x ∈ members, Stored w v x ∨ p v x) :
    Within w { w with redis := KeyValue.put (key v) ⟨.set members, ttl⟩ w.redis } p where
  sets q hq hl u hk := by
    rcases List.mem_cons.1 hq with rfl | hq
    · exact ⟨members, rfl⟩
    · exact hw q (List.mem_filter.1 hq).1 hl u hk
  stored u x hx := by
    obtain ⟨q, hq, hk, hl, ms, hms, hin⟩ := hx
    rcases List.mem_cons.1 hq with rfl | hq
    · cases hms
      exact key_inj hk ▸ hm x hin
    · exact .inl ⟨q, (List.mem_filter.1 hq).1, hk, hl, ms, hms, hin⟩

theorem within_del (hw : HoldSets w) (k : String) : Within w (w.del k) p where
  sets q hq := hw q (List.mem_filter.1 hq).1
  stored u x hx := by
    obtain ⟨q, hq, hrest⟩ := hx
    exact .inl ⟨q, (List.mem_filter.1 hq).1, hrest⟩

theorem not_stored_del (w : World) (v x : String) : ¬ Stored (w.del (key v)) v x := by
  rintro ⟨q, hq, hk, -⟩
  simp [World.del, KeyValue.del, hk] at hq

theorem stored_of_entry {members : List String} {ttl : Option Nat} {x : String}
    (he : KeyValue.entry w.now (key v) w.redis = some ⟨.set members, ttl⟩) (hx : x ∈ members) :
    Stored w v x :=
  ⟨_, (KeyValue.entry_some he).1, rfl, (KeyValue.entry_some he).2, members, rfl, hx⟩

theorem set_of_entry {e : KeyValue.Entry RedisValue} (hw : HoldSets w)
    (he : KeyValue.entry w.now (key v) w.redis = some e) :
    ∃ members, e = ⟨.set members, e.expireAt⟩ := by
  obtain ⟨hmem, hl⟩ := KeyValue.entry_some he
  obtain ⟨members, hv⟩ := hw _ hmem hl v rfl
  obtain ⟨value, ttl⟩ := e
  obtain rfl : value = .set members := hv
  exact ⟨members, rfl⟩

theorem within_sadd (hw : HoldSets w) :
    ∃ w', w.sadd (key v) m = some w' ∧ Within w w' fun u x => u = v ∧ x = m := by
  unfold World.sadd
  cases he : KeyValue.entry w.now (key v) w.redis with
  | none => exact ⟨_, rfl, within_put hw fun x hx => .inr ⟨rfl, List.mem_singleton.1 hx⟩⟩
  | some e =>
    obtain ⟨members, hs⟩ := set_of_entry hw he
    rw [hs] at he ⊢
    refine ⟨_, rfl, within_put hw fun x hx => ?_⟩
    split at hx
    · exact .inl (stored_of_entry he hx)
    · rcases List.mem_append.1 hx with hx | hx
      · exact .inl (stored_of_entry he hx)
      · exact .inr ⟨rfl, List.mem_singleton.1 hx⟩

theorem within_srem (hw : HoldSets w) :
    ∃ w', w.srem (key v) m = some w' ∧ Within w w' p ∧ ¬ Stored w' v m := by
  unfold World.srem
  cases he : KeyValue.entry w.now (key v) w.redis with
  | none =>
    refine ⟨_, rfl, within_refl hw, ?_⟩
    rintro ⟨q, hq, hk, hl, -⟩
    have hno := Option.map_eq_none_iff.1 he
    exact List.find?_eq_none.1 hno q hq (by simp [hk, hl])
  | some e =>
    obtain ⟨members, hs⟩ := set_of_entry hw he
    rw [hs] at he ⊢
    dsimp only
    split
    · exact ⟨_, rfl, within_del hw _, not_stored_del w v m⟩
    · refine ⟨_, rfl, within_put hw fun x hx =>
        .inl (stored_of_entry he (List.mem_filter.1 hx).1), ?_⟩
      rintro ⟨q, hq, hk, -, ms, hms, hin⟩
      rcases List.mem_cons.1 hq with rfl | hq
      · cases hms
        simp at hin
      · simp [KeyValue.del, hk] at hq

theorem within_expire (hw : HoldSets w) (ttl : Nat) : Within w (w.expire (key v) ttl) p := by
  unfold World.expire
  cases he : KeyValue.entry w.now (key v) w.redis with
  | none => exact within_refl hw
  | some e =>
    obtain ⟨members, hs⟩ := set_of_entry hw he
    rw [hs] at he ⊢
    exact within_put hw fun x hx => .inl (stored_of_entry he hx)

theorem within_tick (hw : HoldSets w) (ms : Nat) : Within w (w.tick ms) p where
  sets q hq hl := hw q hq (live_of_later hl)
  stored u x hx := by
    obtain ⟨q, hq, hk, hl, hrest⟩ := hx
    exact .inl ⟨q, hq, hk, live_of_later hl, hrest⟩

theorem within_updateLastSeenAt (hw : HoldSets w) (u : String) :
    Within w (updateLastSeenAt u w) p := by
  obtain ⟨lastSeenAt, hu⟩ := updateLastSeenAt_world u w
  rw [hu]
  exact ⟨hw, fun _ _ => .inl⟩

theorem scard_holds (hw : HoldSets w) : ∃ n, w.scard (key v) = some n := by
  unfold World.scard World.lookup KeyValue.get
  cases he : KeyValue.entry w.now (key v) w.redis with
  | none => exact ⟨0, rfl⟩
  | some e =>
    obtain ⟨members, hs⟩ := set_of_entry hw he
    exact ⟨members.length, by rw [hs]; rfl⟩

end Commands

end Presence

/-! ## Sockets that come and go -/

namespace Realtime

open Presence (Stored HoldSets)

abbrev LifecycleCall := Call ⊕ EventCall
abbrev LifecyclePc := Pc ⊕ EventPc

/-- The two handlers of any number of sockets. -/
def lifecycle (cfg : AppConfig) (decode : String → Option Jwt) (json : Messages.Json) :
    Machine Hub LifecycleCall LifecyclePc Choice Env :=
  (machine cfg decode).sum (eventMachine cfg json)

/-- `handleDisconnect` of a socket has not begun when its `handleConnection` sets the heartbeat. -/
def Orderly : Discipline Hub LifecycleCall LifecyclePc where
  alone _ _ _ := True
  beside k _ pc k₂ pc₂ := ∀ id hs u, k = .inl (.connect id hs) →
    pc = .inl (.connect (.presence u .scard)) → k₂ = .inr (.disconnect id) →
    pc₂ = .inr (.disconnect .left)

/-- The socket has been added to the set. -/
def entered : ConnectPc → Bool
  | .presence _ .expire | .presence _ .scard | .myRooms _ | .coMembers _ _ | .accepted _ => true
  | _ => false

/-- The heartbeat has been set. -/
def beating : ConnectPc → Bool
  | .myRooms _ | .coMembers _ _ | .accepted _ => true
  | _ => false

/-- What `handleConnection` of the socket has left behind when it is about to do `c`. -/
structure Place (h : Hub) (id : String) (c : ConnectPc) : Prop where
  userId : (h.sockets id).userId = authenticatedAs c
  blank : authenticatedAs c ≠ some ""
  heartbeat : (h.sockets id).heartbeat = true → beating c = true
  stored : ∀ v, Stored h.world v id → entered c = true ∧ authenticatedAs c = some v

/-- Nothing of the socket is new. -/
structure NoMore (h h' : Hub) (id : String) : Prop where
  userId : (h'.sockets id).userId = (h.sockets id).userId
  heartbeat : (h'.sockets id).heartbeat = true → (h.sockets id).heartbeat = true
  stored : ∀ v, Stored h'.world v id → Stored h.world v id

theorem NoMore.place {h h' : Hub} {id : String} {c : ConnectPc} (hq : NoMore h h' id)
    (hp : Place h id c) : Place h' id c :=
  ⟨hq.userId.trans hp.userId, hp.blank, fun hb => hp.heartbeat (hq.heartbeat hb),
    fun v hv => hp.stored v (hq.stored v hv)⟩

/-- No user is called `""`. -/
def UsersNamed (h : Hub) : Prop := ∀ r ∈ h.world.db.users.rows, r.id ≠ ""

@[simp] theorem Hub.heartbeat_join (h : Hub) (id j : String) (rooms : List String) :
    ((h.join id rooms).sockets j).heartbeat = (h.sockets j).heartbeat := by
  unfold Hub.join
  rw [Hub.sockets_update]
  split
  · rename_i hj; rw [hj]
  · rfl

@[simp] theorem heartbeat_reject (h : Hub) (id j : String) (message : Option String) :
    ((reject h id message).sockets j).heartbeat = (h.sockets j).heartbeat := by
  unfold reject Hub.disconnect
  rw [Hub.sockets_update]
  split
  · rename_i hj; rw [hj]; rfl
  · rfl

@[simp] theorem world_emitToUsers (h : Hub) (userIds : List String) (e : ServerEvent) :
    (emitToUsers h userIds e).world = h.world := by
  unfold emitToUsers
  split <;> rfl

section Step
variable {cfg : AppConfig} {decode : String → Option Jwt} {id : String} {h h' : Hub}

theorem noMore_of_eq {j : String} (hworld : h'.world = h.world)
    (huser : (h'.sockets j).userId = (h.sockets j).userId)
    (hbeat : (h'.sockets j).heartbeat = (h.sockets j).heartbeat) : NoMore h h' j :=
  ⟨huser, fun hb => hbeat ▸ hb, fun _ hv => hworld ▸ hv⟩

/-- What an action of `handleConnection` does to the sockets and the sets. -/
structure Connects (id : String) (h h' : Hub) (c c' : ConnectPc) : Prop where
  sets : HoldSets h'.world
  others : ∀ j, j ≠ id → NoMore h h' j
  place : Place h' id c'
  /-- The heartbeat is set by the action after the `SCARD`. -/
  beats : beating c' = true → (∃ u, c = .presence u .scard) ∨
    beating c = true ∧ authenticatedAs c' = authenticatedAs c ∧ NoMore h h' id

/-- An action that leaves all sockets and the sets alone. -/
theorem Connects.of_noMore {c c' : ConnectPc} (hsets : HoldSets h'.world)
    (hq : ∀ j, NoMore h h' j) (hp : Place h id c) (hk : authenticatedAs c' = authenticatedAs c)
    (he : entered c = true → entered c' = true) (hb : beating c' = beating c) :
    Connects id h h' c c' where
  sets := hsets
  others j _ := hq j
  place := by
    have hp' := (hq id).place hp
    exact ⟨hp'.userId.trans hk.symm, hk ▸ hp'.blank, fun hbeat => hb ▸ hp'.heartbeat hbeat,
      fun v hv => ⟨he (hp'.stored v hv).1, hk ▸ (hp'.stored v hv).2⟩⟩
  beats hbeat := .inr ⟨hb ▸ hbeat, hk, hq id⟩

theorem addStep_within {u : String} {pc pc' : Presence.AddPc} {w' : World}
    (hw : HoldSets h.world)
    (hs : Presence.addStep cfg u id h.world pc = some (w', pc')) :
    (pc = .sadd ∧ pc' = .expire ∨ pc = .expire ∧ pc' = .scard ∨
      pc = .scard ∧ ∃ online, pc' = .done (.ok online)) ∧
    Presence.Within h.world w' fun v x => v = u ∧ x = id := by
  cases pc with
  | sadd =>
    obtain ⟨w₁, hadd, hwithin⟩ := Presence.within_sadd (v := u) (m := id) hw
    rw [Presence.addStep, hadd] at hs
    cases hs
    exact ⟨.inl ⟨rfl, rfl⟩, hwithin⟩
  | expire =>
    cases hs
    exact ⟨.inr (.inl ⟨rfl, rfl⟩), Presence.within_expire hw _⟩
  | scard =>
    obtain ⟨n, hn⟩ := Presence.scard_holds (v := u) hw
    rw [Presence.addStep, hn] at hs
    cases hs
    exact ⟨.inr (.inr ⟨rfl, _, rfl⟩), Presence.within_refl hw⟩
  | done r => cases hs

/-- `handleConnection` adds its socket to the set of its user. -/
theorem connects_presence {u : String} {pc pc' : Presence.AddPc} {world : World}
    (hp : Place h id (.presence u pc))
    (hwithin : Presence.Within h.world world fun v x => v = u ∧ x = id)
    (hentered : entered (.presence u pc') = true) :
    Connects id h { h with world := world } (.presence u pc) (.presence u pc') where
  sets := hwithin.sets
  others j hj := ⟨rfl, fun hb => hb, fun v hv =>
    (hwithin.stored v j hv).resolve_right fun hn => hj hn.2⟩
  place := by
    refine ⟨hp.userId, hp.blank, hp.heartbeat, fun v hv => ⟨hentered, ?_⟩⟩
    rcases hwithin.stored v id hv with hv | ⟨rfl, -⟩
    · exact (hp.stored v hv).2
    · rfl
  beats hb := by cases hb

/-- It sets the heartbeat when the set has been counted. -/
theorem connects_online {u : String} {world : World} (hp : Place h id (.presence u .scard))
    (hwithin : Presence.Within h.world world fun v x => v = u ∧ x = id) (online : Bool) :
    Connects id h (Hub.update { h with world := world } id fun s => { s with heartbeat := true })
      (.presence u .scard) (if online then .myRooms u else .accepted u) where
  sets := hwithin.sets
  others j hj := by
    refine ⟨by simp [hj], by simp [hj], fun v hv => ?_⟩
    exact (hwithin.stored v j hv).resolve_right fun hn => hj hn.2
  place := by
    refine ⟨?_, ?_, fun _ => ?_, fun v hv => ?_⟩
    · cases online <;> simpa [authenticatedAs] using hp.userId
    · cases online <;> exact hp.blank
    · cases online <;> rfl
    · have hvu : v = u := (hwithin.stored v id hv).elim
        (fun hv => (Option.some.inj (hp.stored v hv).2).symm) (·.1)
      subst hvu
      cases online <;> exact ⟨rfl, rfl⟩
  beats _ := .inl ⟨u, rfl⟩

theorem connects_of_step {hs : Handshake} {c c' : ConnectPc} (hnamed : UsersNamed h)
    (hw : HoldSets h.world) (hp : Place h id c)
    (hstep : connectStep cfg decode id hs h c = some (h', c')) : Connects id h h' c c' := by
  cases c <;> simp only [connectStep] at hstep
  case verify =>
    have hrej : ∀ message, Connects id h (reject h id message) .verify (.rejected none) :=
      fun message => .of_noMore hw (fun j => noMore_of_eq rfl (by simp) (by simp)) hp rfl
        (fun he => by cases he) rfl
    split at hstep
    · cases hstep; exact hrej _
    · split at hstep
      · cases hstep; exact hrej _
      · split at hstep <;> cases hstep
        · exact .of_noMore hw (fun j => noMore_of_eq rfl rfl rfl) hp rfl (fun he => he) rfl
        · exact hrej _
  case user sub =>
    split at hstep
    · rename_i ha
      obtain ⟨u, hf, -⟩ := (Option.any_eq_true _ _).1 ha
      obtain ⟨hmem, hid⟩ := Table.find_some hf
      cases hstep
      refine ⟨hw, fun j hj => ?_, ?_, fun hb => by cases hb⟩
      · exact noMore_of_eq rfl (by simp [hj]) (by simp [hj])
      · refine ⟨by simp [authenticatedAs], ?_, fun hb => ?_, fun v hv => ?_⟩
        · have := hnamed u hmem
          simp_all [authenticatedAs]
        · have := hp.heartbeat (by simpa using hb)
          cases this
        · have := (hp.stored v hv).1
          cases this
    · cases hstep
      exact .of_noMore hw (fun j => noMore_of_eq rfl (by simp) (by simp)) hp rfl
        (fun he => by cases he) rfl
  case joinUser u =>
    cases hstep
    exact .of_noMore hw (fun j => noMore_of_eq rfl (by simp) (by simp)) hp rfl (fun he => he) rfl
  case memberships u =>
    split at hstep <;> cases hstep <;>
      exact .of_noMore hw (fun j => noMore_of_eq rfl rfl rfl) hp rfl (fun he => he) rfl
  case joinRooms u roomIds =>
    cases hstep
    exact .of_noMore hw (fun j => noMore_of_eq rfl (by simp) (by simp)) hp rfl (fun he => he) rfl
  case presence u pc =>
    obtain ⟨⟨world, pc₁⟩, ha, he⟩ := Option.map_eq_some_iff.1 hstep
    obtain ⟨hpc, hwithin⟩ := addStep_within hw ha
    rcases hpc with ⟨rfl, rfl⟩ | ⟨rfl, rfl⟩ | ⟨rfl, online, rfl⟩ <;> cases he
    · exact connects_presence hp hwithin rfl
    · exact connects_presence hp hwithin rfl
    · exact connects_online hp hwithin online
  case myRooms u =>
    split at hstep <;> cases hstep <;>
      exact .of_noMore hw (fun j => noMore_of_eq rfl rfl rfl) hp rfl (fun he => he) rfl
  case coMembers u roomIds =>
    cases hstep
    exact .of_noMore (by simpa using hw) (fun j => noMore_of_eq (by simp) (by simp) (by simp)) hp
      rfl (fun he => he) rfl
  case accepted u => cases hstep
  case rejected u => cases hstep

/-- What an action of `handleDisconnect` does. -/
structure Hangs (id : String) (h h' : Hub) (d d' : DisconnectPc) : Prop where
  sets : HoldSets h'.world
  quiet : ∀ j, NoMore h h' j
  begun : d' ≠ .left
  left : d = .left → (h'.sockets id).heartbeat = false ∧
    ∀ u, (h.sockets id).userId = some u → u ≠ "" → d' = .presence u .srem
  srem : ∀ u, d = .presence u .srem → ¬ Stored h'.world u id

/-- An action that does no more than read. -/
theorem Hangs.of_noMore {d d' : DisconnectPc} (hsets : HoldSets h'.world) (hq : ∀ j, NoMore h h' j)
    (hbegun : d' ≠ .left) (hl : d ≠ .left) (hs : ∀ u, d ≠ .presence u .srem) :
    Hangs id h h' d d' :=
  ⟨hsets, hq, hbegun, fun h => absurd h hl, fun u h => absurd h (hs u)⟩

theorem hangs_of_step {d d' : DisconnectPc} (hw : HoldSets h.world)
    (hstep : disconnectStep id h d = some (h', d')) : Hangs id h h' d d' := by
  cases d <;> simp only [disconnectStep] at hstep
  case left =>
    cases hstep
    refine ⟨hw, fun j => ⟨?_, ?_, fun _ hv => hv⟩, ?_, fun _ => ⟨by simp, fun u hu hne => ?_⟩,
      fun u hu => by cases hu⟩
    · simp only [Hub.sockets_update, Hub.disconnect]
      split
      · rename_i hj; subst hj; simp
      · rfl
    · simp only [Hub.sockets_update, Hub.disconnect]
      split
      · exact fun hb => by cases hb
      · exact fun hb => hb
    · split <;> simp
    · rw [hu, truthy_some hne]
  case presence u pc =>
    obtain ⟨⟨world, pc₁⟩, hr, he⟩ := Option.map_eq_some_iff.1 hstep
    cases he
    have hquiet : ∀ {w : World}, Presence.Within h.world w (fun _ _ => False) →
        ∀ j, NoMore h { h with world := w } j := fun hwithin j =>
      ⟨rfl, fun hb => hb, fun v hv => (hwithin.stored v j hv).resolve_right not_false⟩
    cases pc with
    | srem =>
      obtain ⟨w', hsrem, hwithin, hno⟩ := Presence.within_srem (v := u) (m := id) hw
      rw [Presence.removeStep, hsrem] at hr
      cases hr
      refine ⟨hwithin.sets, hquiet hwithin, by simp, fun hl => by simp at hl, fun v hv => ?_⟩
      cases hv
      exact hno
    | scard =>
      obtain ⟨n, hn⟩ := Presence.scard_holds (v := u) hw
      rw [Presence.removeStep, hn] at hr
      cases hr
      exact .of_noMore hw (hquiet (Presence.within_refl hw)) (by split <;> simp) (by simp) (by simp)
    | del =>
      cases hr
      have hwithin := Presence.within_del (p := fun _ _ => False) hw (Presence.key u)
      exact .of_noMore hwithin.sets (hquiet hwithin) (by simp) (by simp) (by simp)
    | lastSeenAt =>
      cases hr
      have hwithin := Presence.within_updateLastSeenAt (p := fun _ _ => False) hw u
      exact .of_noMore hwithin.sets (hquiet hwithin) (by simp) (by simp) (by simp)
    | done r => cases hr
  case myRooms u =>
    split at hstep <;> cases hstep <;>
      exact .of_noMore hw (fun j => noMore_of_eq rfl rfl rfl) (by simp) (by simp) (by simp)
  case coMembers u roomIds =>
    cases hstep
    exact .of_noMore (by simpa using hw) (fun j => noMore_of_eq (by simp) (by simp) (by simp))
      (by simp) (by simp) (by simp)
  case done => cases hstep

end Step

/-! ## Runs -/

section Pool
variable {ι : Type}

/-- Every socket has connected once. -/
structure Handlers (calls : ι → LifecycleCall) : Prop where
  only : ∀ i, (∃ id hs, calls i = .inl (.connect id hs)) ∨ ∃ id, calls i = .inr (.disconnect id)
  once : ∀ {i j id hs hs'}, calls i = .inl (.connect id hs) → calls j = .inl (.connect id hs') →
    i = j

/-- The hub before the sockets connect. -/
structure Unconnected (calls : ι → LifecycleCall) (h : Hub) : Prop where
  sets : HoldSets h.world
  named : UsersNamed h
  fresh : ∀ i id hs, calls i = .inl (.connect id hs) → (h.sockets id).userId = none ∧
    (h.sockets id).heartbeat = false ∧ ∀ u, ¬ Stored h.world u id

/-- What is left of a socket once the heartbeat has been set and `handleDisconnect` has begun. -/
structure Leaving (h : Hub) (id : String) (c : ConnectPc) (d : DisconnectPc) : Prop where
  heartbeat : (h.sockets id).heartbeat = false
  stored : (∃ u, authenticatedAs c = some u ∧ d = .presence u .srem) ∨ ∀ u, ¬ Stored h.world u id

/-- Every socket has left what its handlers have left. -/
structure Tracked (calls : ι → LifecycleCall) (Q : Pool Hub LifecyclePc ι) : Prop where
  sets : HoldSets Q.shared.world
  named : UsersNamed Q.shared
  place : ∀ {i id hs}, calls i = .inl (.connect id hs) →
    ∃ c, Q.pcs i = .inl (.connect c) ∧ Place Q.shared id c
  leaving : ∀ {i id hs c j d}, calls i = .inl (.connect id hs) → Q.pcs i = .inl (.connect c) →
    beating c = true → calls j = .inr (.disconnect id) → Q.pcs j = .inr (.disconnect d) →
    d ≠ .left → Leaving Q.shared id c d

theorem Leaving.noMore {h h' : Hub} {id : String} {c c' : ConnectPc} {d : DisconnectPc}
    (hl : Leaving h id c d) (hk : authenticatedAs c' = authenticatedAs c) (hq : NoMore h h' id) :
    Leaving h' id c' d where
  heartbeat := by
    by_contra hb
    have hbeat := hq.heartbeat (by simpa using hb)
    rw [hl.heartbeat] at hbeat
    cases hbeat
  stored := hl.stored.imp (fun ⟨u, hu, hd⟩ => ⟨u, hk.trans hu, hd⟩)
    fun hno u hu => hno u (hq.stored u hu)

variable [DecidableEq ι] {cfg : AppConfig} {decode : String → Option Jwt} {json : Messages.Json}
  {calls : ι → LifecycleCall} {Q : Pool Hub LifecyclePc ι}

theorem tracked_connect {i : ι} {id : String} {hs : Handshake} {c c' : ConnectPc} {h' : Hub}
    (hcalls : Handlers calls) (hQ : Tracked calls Q) (hcall : calls i = .inl (.connect id hs))
    (hpc : Q.pcs i = .inl (.connect c)) (ha : Orderly.allows calls Q i)
    (hstep : connectStep cfg decode id hs Q.shared c = some (h', c')) :
    Tracked calls ⟨h', Function.update Q.pcs i (.inl (.connect c'))⟩ := by
  obtain ⟨c₀, hpc₀, hp⟩ := hQ.place hcall
  obtain rfl : c₀ = c := by rw [hpc] at hpc₀; cases hpc₀; rfl
  have hcon := connects_of_step hQ.named hQ.sets hp hstep
  have hdb := (connectStep_world hstep).1
  refine ⟨hcon.sets, fun r hr => hQ.named r (hdb ▸ hr), fun {i₁ id₁ hs₁} hc₁ => ?_,
    fun {i₁ id₁ hs₁ c₁ j d} hc₁ hpc₁ hb hj hd hbegun => ?_⟩
  · by_cases hi : i₁ = i
    · subst hi
      rw [hcall] at hc₁
      cases hc₁
      exact ⟨c', by simp, hcon.place⟩
    · obtain ⟨c₁, hpc₁, hp₁⟩ := hQ.place hc₁
      have hid : id₁ ≠ id := by rintro rfl; exact hi (hcalls.once hc₁ hcall)
      exact ⟨c₁, by simpa [Function.update_of_ne hi] using hpc₁, (hcon.others id₁ hid).place hp₁⟩
  · have hji : j ≠ i := by rintro rfl; rw [hcall] at hj; cases hj
    simp only [Function.update_of_ne hji] at hd
    by_cases hi : i₁ = i
    · subst hi
      rw [hcall] at hc₁
      cases hc₁
      simp only [Function.update_self, Sum.inl.injEq, Pc.connect.injEq] at hpc₁
      subst hpc₁
      rcases hcon.beats hb with ⟨u, rfl⟩ | ⟨hb₀, hk, hq⟩
      · -- no `handleDisconnect` has begun
        have hleft := ha.2 j hji id hs u hcall hpc hj
        rw [hd] at hleft
        cases hleft
        exact absurd rfl hbegun
      · exact (hQ.leaving hcall hpc hb₀ hj hd hbegun).noMore hk hq
    · simp only [Function.update_of_ne hi] at hpc₁
      have hid : id₁ ≠ id := by rintro rfl; exact hi (hcalls.once hc₁ hcall)
      exact (hQ.leaving hc₁ hpc₁ hb hj hd hbegun).noMore rfl (hcon.others id₁ hid)

theorem tracked_disconnect {i : ι} {id : String} {d d' : DisconnectPc} {h' : Hub}
    (hQ : Tracked calls Q) (hcall : calls i = .inr (.disconnect id))
    (hpc : Q.pcs i = .inr (.disconnect d))
    (hstep : disconnectStep id Q.shared d = some (h', d')) :
    Tracked calls ⟨h', Function.update Q.pcs i (.inr (.disconnect d'))⟩ := by
  have hhang := hangs_of_step hQ.sets hstep
  obtain ⟨-, ⟨lastSeenAt, hdb⟩, -⟩ := disconnectStep_world hstep
  refine ⟨hhang.sets, fun r hr => hQ.named r (by rwa [hdb] at hr), fun {i₁ id₁ hs₁} hc₁ => ?_,
    fun {i₁ id₁ hs₁ c₁ j d₁} hc₁ hpc₁ hb hj hd hbegun => ?_⟩
  · obtain ⟨c₁, hpc₁, hp₁⟩ := hQ.place hc₁
    have hi : i₁ ≠ i := by rintro rfl; rw [hcall] at hc₁; cases hc₁
    exact ⟨c₁, by simpa [Function.update_of_ne hi] using hpc₁, (hhang.quiet id₁).place hp₁⟩
  · have hi : i₁ ≠ i := by rintro rfl; rw [hcall] at hc₁; cases hc₁
    simp only [Function.update_of_ne hi] at hpc₁
    by_cases hji : j = i
    · subst hji
      rw [hcall] at hj
      cases hj
      simp only [Function.update_self, Sum.inr.injEq, EventPc.disconnect.injEq] at hd
      subst hd
      obtain ⟨c₂, hpc₂, hp⟩ := hQ.place hc₁
      obtain rfl : c₂ = c₁ := by rw [hpc₁] at hpc₂; cases hpc₂; rfl
      by_cases hleft : d = .left
      · -- the handler looks for what the other one has left
        obtain ⟨hbeat, hnext⟩ := hhang.left hleft
        obtain ⟨u, hu⟩ : ∃ u, authenticatedAs c₂ = some u := by
          cases c₂ <;> first | exact ⟨_, rfl⟩ | cases hb
        exact ⟨hbeat, .inl ⟨u, hu, hnext u (hp.userId.trans hu) fun he => hp.blank (he ▸ hu)⟩⟩
      · have hl := hQ.leaving hc₁ hpc₁ hb hcall hpc hleft
        refine ⟨(hl.noMore rfl (hhang.quiet id)).heartbeat, .inr fun v hv => ?_⟩
        have hv₀ := (hhang.quiet id).stored v hv
        obtain ⟨u, hu, rfl⟩ := hl.stored.resolve_right fun hno => hno v hv₀
        obtain rfl : u = v := Option.some.inj (hu.symm.trans (hp.stored v hv₀).2)
        exact hhang.srem u rfl hv
    · simp only [Function.update_of_ne hji] at hd
      exact (hQ.leaving hc₁ hpc₁ hb hj hd hbegun).noMore rfl (hhang.quiet id₁)

theorem noMore_env (e : Env) {h : Hub} (hw : HoldSets h.world) (j : String) :
    HoldSets (env cfg e h).world ∧ NoMore h (env cfg e h) j := by
  have hnoMore : ∀ {w : World}, Presence.Within h.world w (fun _ _ => False) →
      HoldSets w ∧ NoMore h { h with world := w } j := fun hwithin =>
    ⟨hwithin.sets, rfl, fun hb => hb, fun v hv => (hwithin.stored v j hv).resolve_right not_false⟩
  cases e with
  | tick ms => exact hnoMore (Presence.within_tick hw ms)
  | heartbeat id =>
    simp only [env]
    split
    · exact hnoMore (Presence.within_expire hw _)
    · exact ⟨hw, rfl, fun hb => hb, fun _ hv => hv⟩

theorem tracked_run {hub : Hub} (hcalls : Handlers calls) (hhub : Unconnected calls hub)
    (hrun : Run (lifecycle cfg decode json) Orderly calls
      ((lifecycle cfg decode json).initial calls hub) Q) : Tracked calls Q := by
  refine hrun.invariant (Tracked calls) ⟨hhub.sets, hhub.named, fun {i id hs} hc => ?_,
    fun {i id hs c j d} hc hpc hb => ?_⟩ ?_ ?_
  · obtain ⟨huser, hbeat, hno⟩ := hhub.fresh i id hs hc
    refine ⟨.verify, ?_, huser, by simp [authenticatedAs], fun hb => ?_, fun v hv => absurd hv (hno v)⟩
    · show Sum.map _ _ (calls i) = _
      rw [hc]
      rfl
    · exact absurd (hbeat.symm.trans hb) (by simp)
  · have hstart : Sum.map _ _ (calls i) = _ := hpc
    rw [hc] at hstart
    cases hstart
    cases hb
  · rintro R i c h' l' - hR ha hs
    rcases Machine.sum_step hs with ⟨call, l, l₁, hci, hpi, rfl, hstep⟩ |
      ⟨call, l, l₁, hci, hpi, rfl, hstep⟩
    · obtain ⟨id, hshake, hc⟩ | ⟨id, hc⟩ := hcalls.only i <;> rw [hci] at hc <;> cases hc
      cases l with
      | connect pc =>
        obtain ⟨⟨h₂, pc'⟩, hcon, he⟩ := Option.map_eq_some_iff.1 hstep
        cases he
        exact tracked_connect hcalls hR hci hpi ha hcon
      | read pc => cases hstep
    · obtain ⟨id, hshake, hc⟩ | ⟨id, hc⟩ := hcalls.only i <;> rw [hci] at hc <;> cases hc
      cases l with
      | disconnect pc =>
        obtain ⟨⟨h₂, pc'⟩, hdis, he⟩ := Option.map_eq_some_iff.1 hstep
        cases he
        exact tracked_disconnect hR hci hpi hdis
      | _ => cases hstep
  · intro R e hR
    have henv := fun j => @noMore_env cfg e _ hR.sets j
    refine ⟨(henv "").1, fun r hr => hR.named r ?_, fun hc => ?_,
      fun hc hpc hb hj hd hbegun => (hR.leaving hc hpc hb hj hd hbegun).noMore rfl (henv _).2⟩
    · rwa [← db_env cfg e R.shared]
    · obtain ⟨c, hpc, hp⟩ := hR.place hc
      exact ⟨c, hpc, (henv _).2.place hp⟩

/-- `handleConnection` has returned. -/
def handshaken : LifecyclePc → Bool
  | .inl (.connect (.accepted _)) | .inl (.connect (.rejected _)) => true
  | _ => false

def hungUp : LifecyclePc → Bool
  | .inr (.disconnect .done) => true
  | _ => false

theorem hungUp_iff {pc : LifecyclePc} : hungUp pc = true ↔ pc = .inr (.disconnect .done) := by
  constructor
  · intro h
    unfold hungUp at h
    split at h
    · rfl
    · cases h
  · rintro rfl
    rfl

/-- Nothing of the socket is left. -/
structure Gone (h : Hub) (id : String) : Prop where
  online : ∀ u, id ∉ Presence.online h.world u
  heartbeat : (h.sockets id).heartbeat = false

/-- **No ghost sockets**, for any number of users and sockets and in every order of steps in which
no socket hangs up while its handshake is on its way to the heartbeat. -/
theorem no_ghost {hub : Hub} (hcalls : Handlers calls) (hhub : Unconnected calls hub)
    (hrun : Run (lifecycle cfg decode json) Orderly calls
      ((lifecycle cfg decode json).initial calls hub) Q) {i j : ι} {id : String} {hs : Handshake}
    (hi : calls i = .inl (.connect id hs)) (hj : calls j = .inr (.disconnect id))
    (hri : handshaken (Q.pcs i) = true) (hrj : Q.pcs j = .inr (.disconnect .done)) :
    Gone Q.shared id := by
  have hQ := tracked_run hcalls hhub hrun
  obtain ⟨c, hpc, hp⟩ := hQ.place hi
  have hleft : (Q.shared.sockets id).heartbeat = false ∧ ∀ u, ¬ Stored Q.shared.world u id := by
    by_cases hb : beating c = true
    · have hl := hQ.leaving hi hpc hb hj hrj (by simp)
      refine ⟨hl.heartbeat, hl.stored.resolve_left ?_⟩
      rintro ⟨u, -, hd⟩
      cases hd
    · -- the handshake has been rejected
      refine ⟨Bool.eq_false_iff.2 fun hbeat => hb (hp.heartbeat hbeat), fun u hu => hb ?_⟩
      rw [hpc] at hri
      have he := (hp.stored u hu).1
      cases c with
      | accepted => rfl
      | rejected => cases he
      | _ => cases hri
  exact ⟨fun u hu => hleft.2 u (Presence.stored_of_online hu), hleft.1⟩

end Pool

/-! ### A socket that hangs up at once -/

/-- `u1` opens the socket `s1` and closes it. -/
def openAndClose : Bool → LifecycleCall
  | false => .inl (.connect "s1" { token := some "t" })
  | true => .inr (.disconnect "s1")

theorem openAndClose_handlers : Handlers openAndClose where
  only i := by cases i; exacts [.inl ⟨_, _, rfl⟩, .inr ⟨_, rfl⟩]
  once := by
    intro i j id hs hs' hi hj
    cases i <;> cases j
    · rfl
    · cases hj
    · cases hi
    · rfl

theorem hubU1_unconnected : Unconnected openAndClose hubU1 where
  sets p hp := by cases hp
  named r hr := by
    obtain rfl := List.mem_singleton.1 hr
    decide
  fresh _ id _ _ := ⟨rfl, rfl, fun u ⟨p, hp, _⟩ => by cases hp⟩

def lifecycleU1 : Machine Hub LifecycleCall LifecyclePc Choice Env :=
  lifecycle {} (fun _ => some tokenAccessU1) Messages.noJson

/-- The turns of the two handlers. -/
def opens (n : Nat) : List (Move Bool Choice Env) := List.replicate n (.step false {})
def closes (n : Nat) : List (Move Bool Choice Env) := List.replicate n (.step true {})

/-- **A ghost.** The socket hangs up before `client.data.userId` is set: `handleDisconnect` finds
nothing, and the handshake goes on. -/
theorem ghost : ¬ ∀ (ι : Type) [DecidableEq ι] (cfg : AppConfig) (decode : String → Option Jwt)
    (json : Messages.Json) (calls : ι → LifecycleCall) (hub : Hub) (Q : Pool Hub LifecyclePc ι),
    Handlers calls → Unconnected calls hub →
    Run (lifecycle cfg decode json) Discipline.free calls
      ((lifecycle cfg decode json).initial calls hub) Q →
    ∀ i j id hs, calls i = .inl (.connect id hs) → calls j = .inr (.disconnect id) →
      handshaken (Q.pcs i) = true → Q.pcs j = .inr (.disconnect .done) → Gone Q.shared id := by
  intro h
  have hexec : (lifecycleU1.exec always openAndClose (lifecycleU1.initial openAndClose hubU1)
      (opens 1 ++ closes 1 ++ opens 7)).any (fun P => handshaken (P.pcs false) &&
        hungUp (P.pcs true) && (P.shared.sockets "s1").heartbeat) = true := by decide
  obtain ⟨P, hrun, hP⟩ := Machine.exec_reaches_free hexec
  simp only [Bool.and_eq_true] at hP
  have hgone := h Bool {} (fun _ => some tokenAccessU1) Messages.noJson openAndClose hubU1 P
    openAndClose_handlers hubU1_unconnected hrun false true "s1" _ rfl rfl hP.1.1
    (hungUp_iff.1 hP.1.2)
  exact absurd (hgone.heartbeat.symm.trans hP.2) (by simp)

/-- `Orderly` for a schedule. -/
def orderlyOk (P : Pool Hub LifecyclePc Bool) (i : Bool) : Bool :=
  match P.pcs i, P.pcs (!i) with
  | .inl (.connect (.presence _ .scard)), .inr (.disconnect .left) => true
  | .inl (.connect (.presence _ .scard)), _ => false
  | _, _ => true

theorem orderlyOk_allows {P : Pool Hub LifecyclePc Bool} {i : Bool} (h : orderlyOk P i = true) :
    Orderly.allows openAndClose P i := by
  refine ⟨trivial, fun j hj id hs u hc hpc hd => ?_⟩
  obtain rfl : j = !i := by cases i <;> cases j <;> simp_all
  rw [orderlyOk, hpc] at h
  split at h
  · assumption
  · cases h
  · simp_all

/-- The socket has its heartbeat, and hangs up. -/
theorem no_ghost_u1 : ∃ P : Pool Hub LifecyclePc Bool,
    Run lifecycleU1 Orderly openAndClose (lifecycleU1.initial openAndClose hubU1) P ∧
    (P.shared.sockets "s1").userId = some "u1" ∧ Gone P.shared "s1" := by
  have hexec : (lifecycleU1.exec orderlyOk openAndClose (lifecycleU1.initial openAndClose hubU1)
      (opens 8 ++ closes 6)).any (fun P => handshaken (P.pcs false) &&
        hungUp (P.pcs true) && ((P.shared.sockets "s1").userId == some "u1")) = true := by decide
  obtain ⟨P, hrun, hP⟩ := Machine.exec_reaches orderlyOk_allows hexec
  simp only [Bool.and_eq_true, beq_iff_eq] at hP
  exact ⟨P, hrun, hP.2, no_ghost openAndClose_handlers hubU1_unconnected hrun rfl rfl hP.1.1
    (hungUp_iff.1 hP.1.2)⟩

end Realtime

end Intaktok
