import Mathlib.Data.List.Nodup
import Intaktok.Rooms.Notices
/-
# What a group says of itself

| here | there |
| --- | --- |
| `changes` | what a payload of `messages/system-message.ts` says has changed |
| `Changed` | what has changed: `README.md:165` lists what a group says of itself, `:164` the one change that goes without saying |
| `updatePayloads` | the conditions of `rooms.service.ts:254` and `:261` |

A group as others see it (`Group`) changes with the writes of a request, and the request says how,
on conditions of its own. `Effected` has for each request what it does to the group and what it is
going to say of it; `describes_iff` compares the two.
-/

namespace Intaktok.Rooms

open Tables Messages

/-! ## What a group says of itself -/

inductive Change where
  | renamed (name : Option String)
  | avatar
  | joined (userId : String)
  | left (userId : String)
  | kicked (userId : String)
  | role (userId : String) (role : MemberRole)
deriving DecidableEq, Repr

def changes : SystemMessagePayload → List Change
  | .roomCreated _ => []
  | .memberJoined _ targetIds => targetIds.map .joined
  | .memberLeft actorId => [.left actorId]
  | .memberKicked _ targetId => [.kicked targetId]
  | .roomRenamed _ name => [.renamed name]
  | .roomAvatarChanged _ => [.avatar]
  | .roleChanged _ targetId role => [.role targetId role]

/-- Who a payload says has done it. -/
def actor : SystemMessagePayload → String
  | .roomCreated actorId | .memberJoined actorId _ | .memberLeft actorId | .memberKicked actorId _
  | .roomRenamed actorId _ | .roomAvatarChanged actorId | .roleChanged actorId _ _ => actorId

/-- The name and the avatar of a room, and who is there. -/
structure Group where
  face : Option (Option String × Option String)
  crew : String → Option RoomMember

def group (w : World) (r : String) : Group := ⟨face w.db r, crew w.db.roomMembers r⟩

/-- A member has become owner. -/
def Transferred (G G' : Group) : Prop :=
  ∃ u m m', G.crew u = some m ∧ m.role ≠ .OWNER ∧ G'.crew u = some m' ∧ m'.role = .OWNER

/-- What has changed by the doing of `a`. That the previous owner is an ADMIN after a transfer goes
without saying. -/
def Changed (a : String) (G G' : Group) : Change → Prop
  | .renamed name => ∃ f f', G.face = some f ∧ G'.face = some f' ∧ f.1 ≠ name ∧ f'.1 = name
  | .avatar => ∃ f f', G.face = some f ∧ G'.face = some f' ∧ f.2 ≠ f'.2
  | .joined u => G.crew u = none ∧ G'.crew u ≠ none
  | .left u => u = a ∧ G.crew u ≠ none ∧ G'.crew u = none
  | .kicked u => u ≠ a ∧ G.crew u ≠ none ∧ G'.crew u = none
  | .role u role => ∃ m m', G.crew u = some m ∧ G'.crew u = some m' ∧ m.role ≠ role ∧
      m'.role = role ∧ ¬ (m.role = .OWNER ∧ role = .ADMIN ∧ Transferred G G')

/-- Each payload says something, and together they say what has changed, once. -/
structure Describes (a : String) (G G' : Group) (payloads : List SystemMessagePayload) : Prop where
  each : ∀ payload ∈ payloads, changes payload ≠ []
  once : (payloads.flatMap changes).Nodup
  exact : ∀ x, x ∈ payloads.flatMap changes ↔ Changed a G G' x

/-! ## When it says what has happened -/

/-- Nobody's role changes when the owner `u` leaves: he is the last, or there are other owners and
no ADMIN. -/
def Unsucceeded (G : Group) (u : String) : Prop :=
  (∀ v, v ≠ u → G.crew v = none) ∨
    (∃ v m, v ≠ u ∧ G.crew v = some m ∧ m.role = .OWNER) ∧
      ∀ v m, v ≠ u → G.crew v = some m → m.role ≠ .ADMIN

/-- A given avatar is another one, a given role is another one, and whoever leaves is no owner who
is succeeded. -/
def Sincere (G : Group) : RoomsCall → Prop
  | .inr (.updateRoom _ _ dto) => ∀ avatar f, dto.avatarMediaId = some avatar → G.face = some f →
      f.2 ≠ avatar
  | .inl (.updateMemberRole _ _ u role) => ∀ m, G.crew u = some m → m.role ≠ role
  | .inl (.removeMember _ _ u) => ∀ m, G.crew u = some m → m.role = .OWNER → Unsucceeded G u
  | _ => True

/-- The group a request is about, and who asks. -/
def groupOf : RoomsCall → Option (String × String)
  | .inr (.updateRoom r a _) => some (r, a)
  | .inl (.addMembers r a _) | .inl (.updateMemberRole r a _ _) | .inl (.removeMember r a _) =>
    some (r, a)
  | .inl (.createRoom _ _) => none

/-! ## What a request does and says -/

/-- The users of `added`, and nobody else, have joined. -/
structure Added (f f' : String → Option RoomMember) (added : List String) : Prop where
  nodup : added.Nodup
  absent : ∀ u ∈ added, f u = none
  present : ∀ u ∈ added, f' u ≠ none
  others : ∀ u, u ∉ added → f' u = f u

/-- `u`, whose row was `m`, has the role; if that makes him owner, `a`, whose row was `ma`, is an
ADMIN. -/
structure Given (a u : String) (role : MemberRole) (m ma : RoomMember) (G G' : Group) : Prop where
  face : G'.face = G.face
  target : G'.crew u = some { m with role }
  actor : G'.crew a = some (if role = .OWNER then { ma with role := .ADMIN } else ma)
  others : ∀ v, v ≠ u → v ≠ a → G'.crew v = G.crew v

/-- What `updateRoom` says, where `name` is the name it has found. -/
def updatePayloads (a : String) (dto : UpdateRoomDto) (name : Option String) :
    List SystemMessagePayload :=
  (match dto.name with
    | some n => if n = name then [] else [.roomRenamed a n]
    | none => []) ++
  (match dto.avatarMediaId with
    | some _ => [.roomAvatarChanged a]
    | none => [])

/-- The requests of `a`: what each has done to the group, and what it says of it. -/
inductive Effected (a : String) (G G' : Group) : RoomsCall → List SystemMessagePayload → Prop
  | updated {r dto f} : G.face = some f →
      G' = ⟨some (dto.name.getD f.1, dto.avatarMediaId.getD f.2), G.crew⟩ →
      Effected a G G' (.inr (.updateRoom r a dto)) (updatePayloads a dto f.1)
  | added {r ids added} : G'.face = G.face → Added G.crew G'.crew added →
      Effected a G G' (.inl (.addMembers r a ids))
        (if added.isEmpty then [] else [.memberJoined a added])
  | role {r u role m ma} : G.crew u = some m → G.crew a = some ma → ma.role = .OWNER →
      Given a u role m ma G G' →
      Effected a G G' (.inl (.updateMemberRole r a u role)) [.roleChanged a u role]
  | left {r u m} : G.crew u = some m → m.role ≠ .OWNER →
      G' = ⟨G.face, Function.update G.crew u none⟩ →
      Effected a G G' (.inl (.removeMember r a u))
        [if u = a then .memberLeft a else .memberKicked a u]
  | deserted {r m} : G.crew a = some m → (∀ v, v ≠ a → G.crew v = none) →
      G' = ⟨G.face, Function.update G.crew a none⟩ →
      Effected a G G' (.inl (.removeMember r a a)) [.memberLeft a]
  | succeeded {r m next} : G.crew a = some m → m.role = .OWNER →
      next.userId ≠ a → G.crew next.userId = some next →
      (next.role = .OWNER ↔ Unsucceeded G a) →
      G' = ⟨G.face, Function.update (Function.update G.crew a none) next.userId
        (some { next with role := .OWNER })⟩ →
      Effected a G G' (.inl (.removeMember r a a)) [.memberLeft a]

/-! ## What it says against what has changed -/

section Describing
variable {a u : String} {G G' : Group} {m : RoomMember}

theorem describes_single {payload : SystemMessagePayload} {x : Change}
    (hx : changes payload = [x]) :
    Describes a G G' [payload] ↔ ∀ y, Changed a G G' y ↔ y = x := by
  constructor
  · intro h y
    rw [← h.exact y, List.flatMap_singleton, hx, List.mem_singleton]
  · intro h
    refine ⟨fun p hp => ?_, ?_, fun y => ?_⟩
    · rw [List.mem_singleton.1 hp, hx]
      exact List.cons_ne_nil x []
    · rw [List.flatMap_singleton, hx]
      simp
    · rw [List.flatMap_singleton, hx, List.mem_singleton, h y]

/-- A face that stays. -/
theorem Changed.not_face {x : Change} (h : Changed a G G' x) (hface : G'.face = G.face) :
    x ≠ .avatar ∧ ∀ name, x ≠ .renamed name := by
  constructor
  · rintro rfl
    obtain ⟨f, f', hf, hf', hne⟩ := h
    rw [hface, hf] at hf'
    cases hf'
    exact hne rfl
  · rintro name rfl
    obtain ⟨f, f', hf, hf', hne, heq⟩ := h
    rw [hface, hf] at hf'
    cases hf'
    exact hne heq

/-- Somebody has left, and nothing else has happened. -/
theorem changed_leave (hm : G.crew u = some m) (y : Change) :
    Changed a G ⟨G.face, Function.update G.crew u none⟩ y ↔
      y = if u = a then .left u else .kicked u := by
  constructor
  · intro h
    obtain ⟨havatar, hname⟩ := h.not_face rfl
    cases y with
    | renamed name => exact absurd rfl (hname name)
    | avatar => exact absurd rfl havatar
    | joined v =>
      obtain ⟨hno, hyes⟩ := h
      by_cases hv : v = u
      · simp [hv] at hyes
      · simp [hv, hno] at hyes
    | left v =>
      obtain ⟨rfl, hyes, hno⟩ := h
      have hv : v = u := by_contra fun hv => hyes (by simpa [hv] using hno)
      rw [if_pos hv.symm, hv]
    | kicked v =>
      obtain ⟨hne, hyes, hno⟩ := h
      have hv : v = u := by_contra fun hv => hyes (by simpa [hv] using hno)
      rw [if_neg fun he => hne (hv.trans he), hv]
    | role v role =>
      obtain ⟨m₁, m₂, h₁, h₂, hne, heq, -⟩ := h
      by_cases hv : v = u
      · simp [hv] at h₂
      · simp only [ne_eq, hv, not_false_eq_true, Function.update_of_ne] at h₂
        rw [h₁] at h₂
        cases h₂
        exact absurd heq hne
  · rintro rfl
    split
    · exact ⟨‹_›, by simp [hm], by simp⟩
    · exact ⟨‹_›, by simp [hm], by simp⟩

theorem describes_leave (hm : G.crew u = some m) :
    Describes a G ⟨G.face, Function.update G.crew u none⟩
      [if u = a then .memberLeft a else .memberKicked a u] := by
  refine (describes_single ?_).2 (changed_leave hm)
  split <;> simp_all [changes]

/-- Nobody has come or gone, and no role is another one. -/
theorem Changed.not_crew {x : Change} (h : Changed a G G' x) (hcrew : G'.crew = G.crew) :
    x = .avatar ∨ ∃ name, x = .renamed name := by
  cases x with
  | renamed name => exact .inr ⟨name, rfl⟩
  | avatar => exact .inl rfl
  | joined v => exact absurd (hcrew ▸ h.1) h.2
  | left v => exact absurd (hcrew ▸ h.2.2) h.2.1
  | kicked v => exact absurd (hcrew ▸ h.2.2) h.2.1
  | role v role =>
    obtain ⟨m₁, m₂, h₁, h₂, hne, heq, -⟩ := h
    rw [hcrew, h₁] at h₂
    cases h₂
    exact absurd heq hne

theorem mem_updatePayloads {dto : UpdateRoomDto} {name : Option String} {x : Change} :
    x ∈ (updatePayloads a dto name).flatMap changes ↔
      (∃ n, dto.name = some n ∧ n ≠ name ∧ x = .renamed n) ∨
        dto.avatarMediaId ≠ none ∧ x = .avatar := by
  unfold updatePayloads
  cases dto.name with
  | none => cases dto.avatarMediaId <;> simp [changes]
  | some n => by_cases hn : n = name <;> cases dto.avatarMediaId <;> simp [changes, hn]

theorem updatePayloads_wellformed (dto : UpdateRoomDto) (name : Option String) :
    (∀ payload ∈ updatePayloads a dto name, changes payload ≠ []) ∧
      ((updatePayloads a dto name).flatMap changes).Nodup := by
  unfold updatePayloads
  cases dto.name with
  | none => cases dto.avatarMediaId <;> simp [changes]
  | some n => by_cases hn : n = name <;> cases dto.avatarMediaId <;> simp [changes, hn]

theorem changed_update {dto : UpdateRoomDto} {f : Option String × Option String}
    (hf : G.face = some f) {x : Change} :
    Changed a G ⟨some (dto.name.getD f.1, dto.avatarMediaId.getD f.2), G.crew⟩ x ↔
      (∃ n, dto.name = some n ∧ n ≠ f.1 ∧ x = .renamed n) ∨
        (∃ avatar, dto.avatarMediaId = some avatar ∧ f.2 ≠ avatar) ∧ x = .avatar := by
  constructor
  · intro h
    obtain rfl | ⟨n, rfl⟩ := h.not_crew rfl
    · obtain ⟨f₁, f₂, h₁, h₂, hne⟩ := h
      rw [hf] at h₁
      cases h₁
      cases h₂
      cases hdto : dto.avatarMediaId with
      | none => simp [hdto] at hne
      | some avatar => exact .inr ⟨⟨avatar, rfl, by simpa [hdto] using hne⟩, rfl⟩
    · obtain ⟨f₁, f₂, h₁, h₂, hne, heq⟩ := h
      rw [hf] at h₁
      cases h₁
      cases h₂
      cases hdto : dto.name with
      | none => simp [hdto] at heq; exact absurd heq hne
      | some name =>
        obtain rfl : name = n := by simpa [hdto] using heq
        exact .inl ⟨name, rfl, hne.symm, rfl⟩
  · rintro (⟨n, hdto, hne, rfl⟩ | ⟨⟨avatar, hdto, hne⟩, rfl⟩)
    · exact ⟨f, _, hf, rfl, hne.symm, by simp [hdto]⟩
    · exact ⟨f, _, hf, rfl, by simpa [hdto] using hne⟩

theorem describes_updated {dto : UpdateRoomDto} {f : Option String × Option String}
    (hf : G.face = some f) :
    Describes a G ⟨some (dto.name.getD f.1, dto.avatarMediaId.getD f.2), G.crew⟩
        (updatePayloads a dto f.1) ↔
      ∀ avatar, dto.avatarMediaId = some avatar → f.2 ≠ avatar := by
  constructor
  · intro h avatar hdto
    have htold : Change.avatar ∈ (updatePayloads a dto f.1).flatMap changes :=
      mem_updatePayloads.2 (.inr ⟨by simp [hdto], rfl⟩)
    rcases (changed_update hf).1 ((h.exact .avatar).1 htold) with ⟨_, -, -, he⟩ | ⟨⟨b, hb, hne⟩, -⟩
    · cases he
    · rw [hdto] at hb
      cases hb
      exact hne
  · intro h
    obtain ⟨heach, honce⟩ := updatePayloads_wellformed (a := a) dto f.1
    refine ⟨heach, honce, fun x => ?_⟩
    rw [mem_updatePayloads, changed_update hf]
    refine or_congr_right (and_congr_left fun _ => ?_)
    rw [Option.ne_none_iff_exists']
    exact exists_congr fun avatar => ⟨fun hdto => ⟨hdto, h avatar hdto⟩, fun hdto => hdto.1⟩

theorem changed_added {added : List String} (hface : G'.face = G.face)
    (h : Added G.crew G'.crew added) {x : Change} :
    Changed a G G' x ↔ ∃ v ∈ added, x = .joined v := by
  -- who was there before is as he was
  have hstays : ∀ {v}, G.crew v ≠ none → G'.crew v = G.crew v := fun {v} hv =>
    h.others v fun hin => hv (h.absent v hin)
  constructor
  · intro hx
    obtain ⟨havatar, hname⟩ := hx.not_face hface
    cases x with
    | renamed name => exact absurd rfl (hname name)
    | avatar => exact absurd rfl havatar
    | joined v =>
      refine ⟨v, by_contra fun hin => hx.2 ?_, rfl⟩
      rw [h.others v hin]
      exact hx.1
    | left v => exact absurd ((hstays hx.2.1).symm.trans hx.2.2) hx.2.1
    | kicked v => exact absurd ((hstays hx.2.1).symm.trans hx.2.2) hx.2.1
    | role v role =>
      obtain ⟨m₁, m₂, h₁, h₂, hne, heq, -⟩ := hx
      rw [hstays (by simp [h₁]), h₁] at h₂
      cases h₂
      exact absurd heq hne
  · rintro ⟨v, hv, rfl⟩
    exact ⟨h.absent v hv, h.present v hv⟩

theorem describes_added {added : List String} (hface : G'.face = G.face)
    (h : Added G.crew G'.crew added) :
    Describes a G G' (if added.isEmpty then [] else [.memberJoined a added]) := by
  have hsaid : (if added.isEmpty then [] else [SystemMessagePayload.memberJoined a added]).flatMap
      changes = added.map .joined := by
    cases added <;> simp [changes]
  refine ⟨fun payload hp => ?_, ?_, fun x => ?_⟩
  · cases added with
    | nil => simp at hp
    | cons v vs => simp_all [changes]
  · rw [hsaid]
    exact List.Nodup.map (fun _ _ he => Change.joined.inj he) h.nodup
  · rw [hsaid, changed_added hface h, List.mem_map]
    exact exists_congr fun v => and_congr_right fun _ => eq_comm

/-- Nobody has come or gone. -/
theorem Changed.is_role {x : Change} (h : Changed a G G' x) (hface : G'.face = G.face)
    (hthere : ∀ v, G'.crew v = none ↔ G.crew v = none) : ∃ v role, x = .role v role := by
  obtain ⟨havatar, hname⟩ := h.not_face hface
  cases x with
  | renamed name => exact absurd rfl (hname name)
  | avatar => exact absurd rfl havatar
  | joined v => exact absurd ((hthere v).2 h.1) h.2
  | left v => exact absurd ((hthere v).1 h.2.2) h.2.1
  | kicked v => exact absurd ((hthere v).1 h.2.2) h.2.1
  | role v role => exact ⟨v, role, rfl⟩

/-- Nobody has come or gone, and only two roles may be other ones. -/
theorem Given.there {role : MemberRole} {ma : RoomMember} (h : Given a u role m ma G G')
    (hm : G.crew u = some m) (ha : G.crew a = some ma) (v : String) :
    G'.crew v = none ↔ G.crew v = none := by
  by_cases hu : v = u
  · simp [hu, h.target, hm]
  · by_cases hv : v = a
    · simp [hv, h.actor, ha]
    · rw [h.others v hu hv]

theorem Given.only {role : MemberRole} {ma : RoomMember} (h : Given a u role m ma G G')
    (hm : G.crew u = some m) (ha : G.crew a = some ma) (howner : ma.role = .OWNER)
    (hrole : m.role ≠ role) {y : Change} (hy : Changed a G G' y) : y = .role u role := by
  obtain ⟨v, role', rfl⟩ := hy.is_role h.face (h.there hm ha)
  obtain ⟨m₁, m₂, h₁, h₂, hne, heq, hnot⟩ := hy
  by_cases hu : v = u
  · rw [hu, h.target] at h₂
    cases h₂
    rw [hu, ← heq]
  · exfalso
    by_cases hv : v = a
    · rw [hv, ha] at h₁
      rw [hv, h.actor] at h₂
      cases h₁
      cases h₂
      split at heq
      · -- the previous owner, in a transfer
        rename_i hto
        exact hnot ⟨howner, heq.symm, u, m, _, hm, hto ▸ hrole, h.target, hto⟩
      · exact hne heq
    · rw [h.others v hu hv, h₁] at h₂
      cases h₂
      exact hne heq

theorem Given.changed {role : MemberRole} {ma : RoomMember} (h : Given a u role m ma G G')
    (hm : G.crew u = some m) (ha : G.crew a = some ma) (hrole : m.role ≠ role) :
    Changed a G G' (.role u role) := by
  refine ⟨m, _, hm, h.target, hrole, rfl, ?_⟩
  rintro ⟨-, rfl, v, m₁, m₂, h₁, hno, h₂, hyes⟩
  by_cases hu : v = u
  · rw [hu, h.target] at h₂
    cases h₂
    cases hyes
  · have hsame : G'.crew v = G.crew v := by
      by_cases hv : v = a
      · rw [hv, h.actor, ha, if_neg (by decide)]
      · exact h.others v hu hv
    rw [hsame, h₁] at h₂
    cases h₂
    exact hno hyes

theorem describes_given {role : MemberRole} {ma : RoomMember} (h : Given a u role m ma G G')
    (hm : G.crew u = some m) (ha : G.crew a = some ma) (howner : ma.role = .OWNER) :
    Describes a G G' [.roleChanged a u role] ↔ m.role ≠ role := by
  rw [describes_single rfl]
  constructor
  · intro hall
    obtain ⟨m₁, -, h₁, -, hrole, -⟩ := (hall (.role u role)).2 rfl
    rw [hm] at h₁
    cases h₁
    exact hrole
  · intro hrole y
    refine ⟨h.only hm ha howner hrole, ?_⟩
    rintro rfl
    exact h.changed hm ha hrole

theorem describes_succeeded {next : RoomMember} (hm : G.crew a = some m) (hne : next.userId ≠ a)
    (hnext : G.crew next.userId = some next)
    (hG : G' = ⟨G.face, Function.update (Function.update G.crew a none) next.userId
        (some { next with role := .OWNER })⟩) :
    Describes a G G' [.memberLeft a] ↔ next.role = .OWNER := by
  subst hG
  constructor
  · intro h
    by_contra hrole
    have hchanged : Changed a G ⟨G.face, Function.update (Function.update G.crew a none)
        next.userId (some { next with role := .OWNER })⟩ (.role next.userId .OWNER) :=
      ⟨next, _, hnext, Function.update_self .., hrole, rfl, by simp⟩
    have hin := (h.exact _).2 hchanged
    simp [changes] at hin
  · intro hrole
    -- the successor is as he was
    have hsame : Function.update (Function.update G.crew a none) next.userId
        (some { next with role := .OWNER }) = Function.update G.crew a none := by
      rw [← hrole, Function.update_eq_self_iff, Function.update_of_ne hne, hnext]
    rw [hsame]
    simpa using describes_leave (a := a) hm

/-- A request that has done what it does describes it where it is sincere. -/
theorem describes_iff {k : RoomsCall} {payloads : List SystemMessagePayload}
    (h : Effected a G G' k payloads) : Describes a G G' payloads ↔ Sincere G k := by
  cases h with
  | updated hf hG =>
    subst hG
    rw [describes_updated hf]
    refine ⟨fun h avatar f' hdto hf' => ?_, fun h avatar hdto => h avatar _ hdto hf⟩
    rw [hf] at hf'
    cases hf'
    exact h avatar hdto
  | added hface hadded => exact iff_of_true (describes_added hface hadded) trivial
  | role hm ha howner hgiven =>
    rw [describes_given hgiven hm ha howner]
    simp [Sincere, hm]
  | left hm hrole hG =>
    subst hG
    refine iff_of_true (describes_leave hm) fun m' hm' howner => ?_
    rw [hm] at hm'
    cases hm'
    exact absurd howner hrole
  | deserted hm halone hG =>
    subst hG
    have hleave := describes_leave (a := a) hm
    rw [if_pos rfl] at hleave
    exact iff_of_true hleave fun _ _ _ => .inl halone
  | succeeded hm howner hne hnext hrole hG =>
    rw [describes_succeeded hm hne hnext hG, hrole]
    refine ⟨fun h _ _ _ => h, fun h => h _ hm howner⟩

end Describing

/-! ## The successor -/

/-- The one elected has been there before. -/
theorem Elected.stays {t : Table RoomMember} {next : RoomMember} {r a : String} {G : Group}
    (h : Elected t r next) (hcrew : crew t r = Function.update G.crew a none) :
    next.userId ≠ a ∧ G.crew next.userId = some next := by
  have hactive := h.active
  have hne : next.userId ≠ a := by
    intro he
    rw [hcrew, he, Function.update_self] at hactive
    cases hactive
  rw [hcrew, Function.update_of_ne hne] at hactive
  exact ⟨hne, hactive⟩

/-- Nobody is promoted where the one elected is an owner already. -/
theorem Elected.unsucceeded {t : Table RoomMember} {next : RoomMember} {r a : String} {G : Group}
    (h : Elected t r next) (hcrew : crew t r = Function.update G.crew a none) :
    next.role = .OWNER ↔ Unsucceeded G a := by
  obtain ⟨hne, hthere⟩ := h.stays hcrew
  obtain ⟨candidates, hperm, hsorted, hpick⟩ := h
  have hin : ∀ v m, v ≠ a → G.crew v = some m → m ∈ candidates := by
    intro v m hv hm
    rw [← Function.update_of_ne hv none G.crew, ← hcrew] at hm
    obtain ⟨hrow, hr, -, hl⟩ := crew_eq_some.1 hm
    exact hperm.mem_iff.2 (by simp [hrow, hr, hl])
  constructor
  · intro howner
    refine .inr ⟨⟨next.userId, next, hne, hthere, howner⟩, fun v m hv hm hadmin => ?_⟩
    rcases successor_eq_some hpick with hfind | ⟨hnone, -⟩
    · have := List.find?_some hfind
      simp [howner] at this
    · have := List.find?_eq_none.1 hnone m (hin v m hv hm)
      simp [hadmin] at this
  · rintro (halone | ⟨⟨v, m, hv, hm, howner⟩, hnoadmin⟩)
    · rw [halone _ hne] at hthere
      cases hthere
    · rcases successor_eq_some hpick with hfind | ⟨-, hhead⟩
      · exact absurd (by simpa using List.find?_some hfind) (hnoadmin _ _ hne hthere)
      · obtain ⟨rest, rfl⟩ := List.head?_eq_some_iff.1 hhead
        rcases List.mem_cons.1 (hin v m hv hm) with rfl | hrest
        · exact howner
        · -- the first of the candidates is at least as high as any other
          have hsenior := (List.pairwise_cons.1 hsorted).1 m hrest
          rw [senior, howner] at hsenior
          cases hrole : next.role <;> simp_all [MemberRole.rank]

end Intaktok.Rooms
