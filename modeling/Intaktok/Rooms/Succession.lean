import Intaktok.Rooms.Requests
import Intaktok.Rooms.Ownership
/-
# Roles from request to request

When no two requests overlap, a group has one owner as soon as it has a member. The crew of a group
changes by a request in one of the ways of `CrewChange`, each of which keeps it governed
(`CrewChange.governed`); the rows of a direct room never have another role than `MEMBER`, so nobody
has the rank to remove the other side. `Sound` says what of this has to be carried from request to
request.
-/

namespace Intaktok.Rooms

open Interleave Tables Leadership Messages

/-! ## Who comes next -/

/-- `next` is an administrator, and the first to have joined of them; or there is none, and he is
the first to have joined of all. -/
structure Heir (f : String → Option RoomMember) (next : RoomMember) : Prop where
  active : f next.userId = some next
  foremost : (next.role = .ADMIN ∧
      ∀ u m, f u = some m → m.role = .ADMIN → next.joinedAt ≤ m.joinedAt) ∨
    ((∀ u m, f u = some m → m.role ≠ .ADMIN) ∧ ∀ u m, f u = some m → next.joinedAt ≤ m.joinedAt)

theorem senior_joinedAt {a b : RoomMember} (h : senior a b) (hr : a.role = b.role) :
    a.joinedAt ≤ b.joinedAt := by
  rcases h with h | h
  · rw [hr] at h; exact absurd h (lt_irrefl _)
  · exact h.2

/-- Where nobody is the owner, the heir is elected. -/
theorem Elected.heir {t : Table RoomMember} {r : String} {next : RoomMember}
    (h : Elected t r next) (hno : ¬ Led owner (crew t r)) : Heir (crew t r) next := by
  refine ⟨h.active, ?_⟩
  obtain ⟨candidates, hperm, hsorted, hs⟩ := h
  have mem : ∀ u m, crew t r u = some m → m ∈ candidates := by
    intro u m hm
    obtain ⟨hin, hr, -, hl⟩ := crew_eq_some.1 hm
    exact hperm.mem_iff.2 (by simp [hin, hr, hl])
  rcases successor_eq_some hs with hf | ⟨hf, hhead⟩
  · obtain ⟨hadmin, before, after, rfl, hnone⟩ := List.find?_eq_some_iff_append.1 hf
    have hadmin : next.role = .ADMIN := by simpa using hadmin
    refine .inl ⟨hadmin, fun u m hm ha => ?_⟩
    rcases List.mem_append.1 (mem u m hm) with hin | hin
    · exact absurd ha (by simpa using hnone m hin)
    · rcases List.mem_cons.1 hin with rfl | hin
      · exact le_refl _
      · exact senior_joinedAt ((List.pairwise_cons.1 (List.pairwise_append.1 hsorted).2.1).1 m hin)
          (hadmin.trans ha.symm)
  · have hplain : ∀ u m, crew t r u = some m → m.role ≠ .ADMIN := fun u m hm =>
      by simpa using List.find?_eq_none.1 hf m (mem u m hm)
    have hmember : ∀ u m, crew t r u = some m → m.role = .MEMBER := by
      intro u m hm
      have hadmin := hplain u m hm
      have howner : m.role ≠ .OWNER := fun ho => hno ⟨u, m, hm, ho⟩
      cases hrole : m.role <;> simp_all
    obtain ⟨after, rfl⟩ := List.head?_eq_some_iff.1 hhead
    have hactive := (Elected.active ⟨_, hperm, hsorted, hs⟩ : crew t r next.userId = some next)
    refine .inr ⟨hplain, fun u m hm => ?_⟩
    rcases List.mem_cons.1 (mem u m hm) with rfl | hin
    · exact le_refl _
    · exact senior_joinedAt ((List.pairwise_cons.1 hsorted).1 m hin)
        ((hmember _ _ hactive).trans (hmember u m hm).symm)

/-! ## The crew of a group -/

/-- What a request does to the crew of a group. -/
inductive CrewChange (r : String) (f : String → Option RoomMember) :
    Call → (String → Option RoomMember) → Prop
  | same {call} : CrewChange r f call f
  | joined {a userIds f'} : Manned f → (∀ u m, f u = some m → f' u = some m) →
      (∀ u m, f' u = some m → f u = none → ¬ owner m) → CrewChange r f (.addMembers r a userIds) f'
  | role {a u role m m'} : role ≠ .OWNER → Leads owner f a → u ≠ a → f u = some m → ¬ owner m' →
      CrewChange r f (.updateMemberRole r a u role) (Function.update f u (some m'))
  | transferred {a u m m'} : Leads owner f a → u ≠ a → owner m → ¬ owner m' →
      CrewChange r f (.updateMemberRole r a u .OWNER)
        (Function.update (Function.update f u (some m)) a (some m'))
  | left {a u} : ¬ Leads owner f u →
      CrewChange r f (.removeMember r a u) (Function.update f u none)
  | deserted {a} : Leads owner f a → ¬ Manned (Function.update f a none) →
      CrewChange r f (.removeMember r a a) (Function.update f a none)
  | succeeded {a next m} : Leads owner f a → Heir (Function.update f a none) next → owner m →
      CrewChange r f (.removeMember r a a)
        (Function.update (Function.update f a none) next.userId (some m))

variable {r : String} {f f' : String → Option RoomMember} {call : Call}

theorem CrewChange.governed (h : CrewChange r f call f') (hf : Governed owner f) :
    Governed owner f' := by
  cases h with
  | same => exact hf
  | joined hm stays comes => exact hf.join hm stays comes
  | @role a u _ _ m' _ ha hne hu hm' =>
    refine hf.update (fun h => hne (hf.1 _ _ h ha)) (fun m hm => ?_) fun _ => ha.manned
    cases hm
    exact hm'
  | transferred ha hne hm hm' => exact hf.transfer ha hne hm hm'
  | left hu => exact hf.update hu (fun _ h => nomatch h) fun h => absurd rfl h
  | deserted _ hno =>
    refine governed_of_unmanned fun u => Option.eq_none_iff_forall_not_mem.2 fun m hm => ?_
    exact hno ⟨u, m, hm⟩
  | succeeded ha _ hm => exact governed_of_succession (hf.1.not_led ha) hm

/-- The owner gives up the group only by leaving it or by handing it over. -/
theorem CrewChange.resigned (h : CrewChange r f call f') (hf : Governed owner f) {u : String}
    (hu : Leads owner f u) (hno : ¬ Leads owner f' u) :
    (call = .removeMember r u u ∧ f' u = none) ∨
      ∃ t, call = .updateMemberRole r u t .OWNER ∧ Leads owner f' t := by
  cases h with
  | same => exact absurd hu hno
  | joined _ stays comes => exact absurd ((leads_join stays comes).2 hu) hno
  | @role a t _ _ _ _ ha hne =>
    obtain rfl := hf.1 _ _ hu ha
    exact absurd ((leads_update_ne hne.symm).2 hu) hno
  | @transferred a t _ _ ha hne hm =>
    obtain rfl := hf.1 _ _ hu ha
    exact .inr ⟨t, rfl, (leads_update_ne hne).2 (leads_update_self.2 ⟨_, rfl, hm⟩)⟩
  | @left a t ht =>
    have hne : u ≠ t := by rintro rfl; exact ht hu
    exact absurd ((leads_update_ne hne).2 hu) hno
  | deserted ha =>
    obtain rfl := hf.1 _ _ hu ha
    exact .inl ⟨rfl, Function.update_self ..⟩
  | @succeeded a next _ ha hheir =>
    obtain rfl := hf.1 _ _ hu ha
    have hne : u ≠ next.userId := fun he => by
      have hactive := hheir.active
      rw [← he, Function.update_self] at hactive
      cases hactive
    exact .inl ⟨rfl, by rw [Function.update_of_ne hne, Function.update_self]⟩

/-- When the owner has left others behind, his heir is the owner, and nothing else has changed. -/
theorem CrewChange.succession (h : CrewChange r f call f') (hf : Governed owner f) {u : String}
    (hu : Leads owner f u) (hleft : f' u = none) (hman : Manned f') :
    ∃ next, Heir (Function.update f u none) next ∧ Leads owner f' next.userId ∧
      ∀ v, v ≠ u → v ≠ next.userId → f' v = f v := by
  obtain ⟨m, hm, howner⟩ := hu
  cases h with
  | same => rw [hm] at hleft; cases hleft
  | joined _ stays => rw [stays u m hm] at hleft; cases hleft
  | @role a t =>
    by_cases ht : u = t
    · subst ht; rw [Function.update_self] at hleft; cases hleft
    · rw [Function.update_of_ne ht, hm] at hleft; cases hleft
  | transferred ha =>
    obtain rfl := hf.1 _ _ ⟨m, hm, howner⟩ ha
    rw [Function.update_self] at hleft
    cases hleft
  | @left a t ht =>
    have hne : u ≠ t := by rintro rfl; exact ht ⟨m, hm, howner⟩
    rw [Function.update_of_ne hne, hm] at hleft
    cases hleft
  | deserted ha hno => exact absurd hman hno
  | @succeeded a next x ha hheir hx =>
    obtain rfl := hf.1 _ _ ⟨m, hm, howner⟩ ha
    refine ⟨next, hheir, leads_update_self.2 ⟨x, rfl, hx⟩, fun v hvu hvn => ?_⟩
    rw [Function.update_of_ne hvn, Function.update_of_ne hvu]

/-! ## What is carried from request to request -/

/-- Nobody in the room has ever had another role. -/
def Plain (r : String) (t : Table RoomMember) : Prop :=
  ∀ m ∈ t.rows, m.roomId = r → m.role = .MEMBER

structure Sound (S : Roster) : Prop where
  unique : ∀ x ∈ S.rooms, ∀ y ∈ S.rooms, x.id = y.id → x = y
  housed : ∀ m ∈ S.members.rows, ∃ x ∈ S.rooms, x.id = m.roomId
  keyed : ∀ x ∈ S.rooms, x.directKey ≠ none → x.type = .DIRECT
  plain : ∀ r, S.Is r .DIRECT → Plain r S.members
  governed : ∀ r, S.Is r .GROUP → Governed owner (crew S.members r)

variable {S S' : Roster}

theorem Sound.is_unique (hs : Sound S) {type type' : RoomType} (h : S.Is r type)
    (h' : S.Is r type') : type = type' := by
  obtain ⟨x, hx, rfl, rfl⟩ := h
  obtain ⟨y, hy, hid, rfl⟩ := h'
  rw [hs.unique y hy x hx hid]

theorem Plain.updateWhere {t : Table RoomMember} {p : RoomMember → Bool}
    {f : RoomMember → RoomMember} {keeps} (h : Plain r t)
    (hf : ∀ m, (f m).roomId = m.roomId ∧ (f m).role = m.role) :
    Plain r (t.updateWhere p f keeps) := by
  intro m hm hr
  obtain ⟨x, hx, rfl⟩ := Table.mem_updateWhere.1 hm
  split at hr
  · rename_i hp
    rw [if_pos hp, (hf x).2]
    exact h x hx ((hf x).1.symm.trans hr)
  · rename_i hp
    rw [if_neg hp]
    exact h x hx hr

theorem Plain.leave {t t' : Table RoomMember} {u : String} {now : Nat} (h : Plain r t)
    (hu : updateMember t r u { leftAt := some (some now) } = some t') : Plain r t' := by
  unfold updateMember at hu
  split at hu <;> cases hu
  exact h.updateWhere fun _ => ⟨rfl, rfl⟩

/-- The rows of one room change. -/
theorem Sound.change (hs : Sound S) {t : Table RoomMember} {type : RoomType} (hr : S.Is r type)
    (hel : Elsewhere r S.members t) (hplain : type = .DIRECT → Plain r t)
    (hgov : type = .GROUP → Governed owner (crew t r)) : Sound ⟨S.rooms, t⟩ where
  unique := hs.unique
  keyed := hs.keyed
  housed m hm := by
    by_cases hmr : m.roomId = r
    · obtain ⟨x, hx, hid, -⟩ := hr
      exact ⟨x, hx, hid.trans hmr.symm⟩
    · exact hs.housed m ((hel m hmr).1 hm)
  plain r' hd := by
    by_cases hr' : r' = r
    · subst hr'; exact hplain (hs.is_unique hr hd)
    · intro m hm hmr
      have hne : m.roomId ≠ r := by rw [hmr]; exact hr'
      exact hs.plain r' hd m ((hel m hne).1 hm) hmr
  governed r' hg := by
    by_cases hr' : r' = r
    · subst hr'; exact hgov (hs.is_unique hr hg)
    · rw [show crew t r' = crew S.members r' from hel.crew hr']; exact hs.governed r' hg

/-- A room is new. -/
theorem Sound.opened (hs : Sound S) {room : Room} {t : Table RoomMember} {ms : List RoomMember}
    (hnew : ∀ x ∈ S.rooms, x.id ≠ room.id) (ht : t.rows = S.members.rows ++ ms)
    (hms : ∀ m ∈ ms, m.roomId = room.id) (hkey : room.directKey ≠ none → room.type = .DIRECT)
    (hplain : room.type = .DIRECT → ∀ m ∈ ms, m.role = .MEMBER)
    (hgov : room.type = .GROUP →
      (∀ u m, crew t room.id u = some m ↔ m ∈ ms ∧ m.userId = u ∧ m.leftAt = none) →
      Governed owner (crew t room.id)) : Sound ⟨S.rooms ++ [room], t⟩ := by
  have hel : Elsewhere room.id S.members t := elsewhere_append ht hms
  have old : ∀ m ∈ S.members.rows, m.roomId ≠ room.id := by
    intro m hm
    obtain ⟨x, hx, hid⟩ := hs.housed m hm
    rw [← hid]
    exact hnew x hx
  -- a room there was, or the new one
  have rooms : ∀ {r type}, Roster.Is ⟨S.rooms ++ [room], t⟩ r type →
      (S.Is r type ∧ r ≠ room.id) ∨ (r = room.id ∧ type = room.type) := by
    rintro r type ⟨x, hx, rfl, rfl⟩
    rcases List.mem_append.1 hx with hx | hx
    · exact .inl ⟨⟨x, hx, rfl, rfl⟩, hnew x hx⟩
    · rw [List.mem_singleton.1 hx]; exact .inr ⟨rfl, rfl⟩
  constructor
  · intro x hx y hy hid
    rcases List.mem_append.1 hx with hx | hx <;> rcases List.mem_append.1 hy with hy | hy
    · exact hs.unique x hx y hy hid
    · rw [List.mem_singleton.1 hy] at hid; exact absurd hid (hnew x hx)
    · rw [List.mem_singleton.1 hx] at hid; exact absurd hid.symm (hnew y hy)
    · rw [List.mem_singleton.1 hx, List.mem_singleton.1 hy]
  · intro m hm
    rw [show t.rows = _ from ht] at hm
    rcases List.mem_append.1 hm with hm | hm
    · obtain ⟨x, hx, hid⟩ := hs.housed m hm
      exact ⟨x, List.mem_append_left _ hx, hid⟩
    · exact ⟨room, by simp, (hms m hm).symm⟩
  · intro x hx hk
    rcases List.mem_append.1 hx with hx | hx
    · exact hs.keyed x hx hk
    · rw [List.mem_singleton.1 hx] at hk ⊢; exact hkey hk
  · intro r hd
    rcases rooms hd with ⟨hd, hr⟩ | ⟨rfl, htype⟩
    · intro m hm hmr
      have hne : m.roomId ≠ room.id := by rw [hmr]; exact hr
      exact hs.plain r hd m ((hel m hne).1 hm) hmr
    · intro m hm hmr
      rw [show t.rows = _ from ht] at hm
      rcases List.mem_append.1 hm with hm | hm
      · exact absurd hmr (old m hm)
      · exact hplain htype.symm m hm
  · intro r hg
    rcases rooms hg with ⟨hg, hr⟩ | ⟨rfl, htype⟩
    · rw [show crew t r = crew S.members r from hel.crew hr]; exact hs.governed r hg
    · refine hgov htype.symm fun u m => ?_
      rw [crew_eq_some, ht, List.mem_append]
      constructor
      · rintro ⟨hm | hm, hr, hrest⟩
        · exact absurd hr (old m hm)
        · exact ⟨hm, hrest⟩
      · exact fun ⟨hm, hrest⟩ => ⟨.inr hm, hms m hm, hrest⟩

/-- A group begins with its creator in charge. -/
theorem governed_groupMembers {room creatorId : String} {now : Nat} {dto : CreateRoomDto}
    (hf : ∀ u m, f u = some m ↔
      m ∈ groupMembers room now creatorId (dto.memberIds creatorId) ∧ m.userId = u ∧
        m.leftAt = none) : Governed owner f := by
  have only : ∀ u, Leads owner f u → u = creatorId := by
    rintro u ⟨m, hm, hl⟩
    obtain ⟨hin, rfl, -⟩ := (hf u m).1 hm
    obtain ⟨v, -, rfl⟩ := List.mem_map.1 hin
    by_contra hv
    rw [owner, if_neg hv] at hl
    cases hl
  refine governed_of_led (fun u v hu hv => (only u hu).trans (only v hv).symm) ⟨creatorId, ?_⟩
  have hin : creatorId ∈ dto.memberIds creatorId := by simp [CreateRoomDto.memberIds]
  exact ⟨_, (hf _ _).2 ⟨List.mem_map.2 ⟨creatorId, hin, rfl⟩, rfl, rfl⟩, by simp [owner]⟩

/-! ## Effects keep it -/

theorem Roster.Is.ne_new {room : Room} {type : RoomType} (h : S.Is r type)
    (hnew : ∀ x ∈ S.rooms, x.id ≠ room.id) : r ≠ room.id := by
  obtain ⟨x, hx, rfl, -⟩ := h
  exact hnew x hx

/-- To a group that there is, a request does one of the things a crew may undergo. -/
theorem Effect.crewChange (hs : Sound S) (h : Effect S call S') (hg : S.Is r .GROUP) :
    CrewChange r (crew S.members r) call (crew S'.members r) := by
  have other : ∀ {r₁ t}, Elsewhere r₁ S.members t → r ≠ r₁ →
      CrewChange r (crew S.members r) call (crew t r) := fun hel hr => hel.crew hr ▸ .same
  cases h with
  | unchanged => exact .same
  | direct hnew _ ht =>
    exact other (elsewhere_append ht fun m hm => (directMembers_room m hm).1) (hg.ne_new hnew)
  | group hnew _ _ ht => exact other (elsewhere_append ht groupMembers_room) (hg.ne_new hnew)
  | @reopened _ _ room hroom hkey =>
    refine other (elsewhere_reactivate _ _ _) ?_
    rintro rfl
    cases hs.is_unique hg ⟨room, hroom, rfl, hs.keyed room hroom hkey⟩
  | @joined r₁ a _ t m _ hm hj =>
    by_cases hr : r = r₁
    · subst hr
      refine .joined ⟨a, m, hm⟩ hj.stays fun u x hx hno ho => ?_
      rw [owner, hj.comes u x hx hno] at ho
      cases ho
    · exact other hj.elsewhere hr
  | @role r₁ a u role t m _ ha hne hm hset =>
    by_cases hr : r = r₁
    · subst hr
      rw [show crew _ r = _ from crew_setRole hset hne, hm]
      split
      · rename_i hrole
        subst hrole
        obtain ⟨ma, hma, ho⟩ := ha
        rw [hma]
        exact .transferred ⟨ma, hma, ho⟩ hne rfl (by simp [owner, MemberData.apply])
      · rename_i hrole
        exact .role hrole ha hne hm (by simpa [owner, MemberData.apply] using hrole)
    · exact other (elsewhere_setRole hset) hr
  | @left r₁ a u type now t ma m htype _ hm _ hnot hu =>
    by_cases hr : r = r₁
    · subst hr
      rw [show crew _ r = _ from crew_leave hu]
      refine .left ?_
      rintro ⟨x, hx, ho⟩
      rw [hm] at hx
      cases hx
      exact hnot ⟨ho, hs.is_unique htype hg⟩
    · exact other (elsewhere_updateMember hu) hr
  | @deserted r₁ a t hd hnone =>
    by_cases hr : r = r₁
    · subst hr
      have hno : ¬ Manned (crew t r) := by
        rintro ⟨u, m, hm⟩
        rw [hnone u] at hm
        cases hm
      rw [show crew _ r = _ from hd.crew_eq] at *
      exact .deserted hd.owner hno
    · exact other hd.elsewhere hr
  | @succeeded r₁ a t next t' hd he hu =>
    by_cases hr : r = r₁
    · subst hr
      have hheir := he.heir (hd.crew_eq ▸ (hs.governed r hg).1.not_led hd.owner)
      rw [show crew _ r = _ from crew_change hu rfl, he.active, hd.crew_eq] at *
      exact .succeeded hd.owner hheir rfl
    · exact other (hd.elsewhere.trans (elsewhere_updateMember hu)) hr

theorem Sound.effect (hs : Sound S) (h : Effect S call S') : Sound S' := by
  have gov : ∀ {r}, S.Is r .GROUP → Governed owner (crew S'.members r) := fun hg =>
    (h.crewChange hs hg).governed (hs.governed _ hg)
  cases h with
  | unchanged => exact hs
  | direct hnew htype ht =>
    exact hs.opened hnew ht (fun m hm => (directMembers_room m hm).1) (fun _ => htype)
      (fun _ m hm => (directMembers_room m hm).2) (fun hg => by rw [htype] at hg; cases hg)
  | group hnew htype hkey ht =>
    exact hs.opened hnew ht groupMembers_room (fun hk => absurd hkey hk)
      (fun hd => by rw [htype] at hd; cases hd) (fun _ hcrew => governed_groupMembers hcrew)
  | @reopened _ _ room hroom hkey =>
    have hd : S.Is room.id .DIRECT := ⟨room, hroom, rfl, hs.keyed room hroom hkey⟩
    exact hs.change hd (elsewhere_reactivate _ _ _)
      (fun _ => (hs.plain _ hd).updateWhere fun _ => ⟨rfl, rfl⟩) (fun h => nomatch h)
  | joined hg _ hj => exact hs.change hg hj.elsewhere (fun h => nomatch h) fun _ => gov hg
  | role hg _ _ _ hset =>
    exact hs.change hg (elsewhere_setRole hset) (fun h => nomatch h) fun _ => gov hg
  | left htype _ _ _ _ hu =>
    exact hs.change htype (elsewhere_updateMember hu)
      (fun hd => (hs.plain _ (hd ▸ htype)).leave hu) fun hg => gov (hg ▸ htype)
  | deserted hd _ =>
    exact hs.change hd.group hd.elsewhere (fun h => nomatch h) fun _ => gov hd.group
  | succeeded hd _ hu =>
    exact hs.change hd.group (hd.elsewhere.trans (elsewhere_updateMember hu)) (fun h => nomatch h)
      fun _ => gov hd.group

/-- In a direct room only he himself ends a membership. -/
theorem Effect.direct_stays (hs : Sound S) (h : Effect S call S') (hd : S.Is r .DIRECT) {u : String}
    {m : RoomMember} (hm : crew S.members r u = some m) (hno : crew S'.members r u = none) :
    call = .removeMember r u u := by
  have other : ∀ {r₁ t}, Elsewhere r₁ S.members t → r ≠ r₁ → crew t r u = none → False :=
    fun hel hr h => by rw [hel.crew hr, hm] at h; cases h
  have group : ∀ {r₁}, S.Is r₁ .GROUP → r ≠ r₁ := by
    rintro r₁ hg rfl
    cases hs.is_unique hd hg
  cases h with
  | unchanged => rw [hm] at hno; cases hno
  | direct hnew _ ht =>
    exact (other (elsewhere_append ht fun m hm => (directMembers_room m hm).1)
      (hd.ne_new hnew) hno).elim
  | group hnew _ _ ht =>
    exact (other (elsewhere_append ht groupMembers_room) (hd.ne_new hnew) hno).elim
  | @reopened creatorId dto room =>
    by_cases hr : r = room.id
    · subst hr
      obtain ⟨hin, hroom, huser, hl⟩ := crew_eq_some.1 hm
      have hstill : crew (reactivateMembers S.members room.id [creatorId, dto.otherId]) room.id u =
          some m :=
        crew_eq_some.2 ⟨Table.mem_updateWhere_of_not hin (by simp [hl]), hroom, huser, hl⟩
      rw [hstill] at hno
      cases hno
    · exact (other (elsewhere_reactivate _ _ _) hr hno).elim
  | joined hg _ hj => exact (other hj.elsewhere (group hg) hno).elim
  | role hg _ _ _ hset => exact (other (elsewhere_setRole hset) (group hg) hno).elim
  | @left r₁ a t type now _ ma x htype hma hx hok _ hu =>
    by_cases hr : r = r₁
    · subst hr
      rw [show crew _ r = _ from crew_leave hu] at hno
      obtain rfl : u = t := by
        by_contra hne
        rw [Function.update_of_ne hne, hm] at hno
        cases hno
      obtain rfl : u = a := by
        by_contra hne
        obtain ⟨hin, hroom, -, -⟩ := crew_eq_some.1 hma
        rw [assertMayRemove, if_neg hne, if_pos (hs.plain r hd ma hin hroom)] at hok
        cases hok
      rfl
    · exact (other (elsewhere_updateMember hu) hr hno).elim
  | deserted hdep _ => exact (other hdep.elsewhere (group hdep.group) hno).elim
  | succeeded hdep _ hu =>
    exact (other (hdep.elsewhere.trans (elsewhere_updateMember hu)) (group hdep.group) hno).elim

/-! ## Whole runs -/

/-- What the service comes to from nothing by complete requests, one after the other, whatever else
happens in between that leaves rooms and memberships alone. -/
inductive Reachable (json : Json) : World → Prop
  | empty {w : World} : w.db.rooms.rows = [] → w.db.roomMembers.rows = [] → Reachable json w
  | request {w w' : World} {call : Call} : Reachable json w → Complete json call w w' →
      Reachable json w'
  | between {w w' : World} : Reachable json w → Kept w w' → Reachable json w'

theorem sound_of_reachable {json : Json} {w : World} (h : Reachable json w) : Sound (roster w) := by
  induction h with
  | @empty w hrooms hmembers =>
    have none : ∀ x, x ∉ (roster w).rooms := by
      intro x hx
      obtain ⟨y, hy, -⟩ := List.mem_map.1 hx
      rw [hrooms] at hy
      cases hy
    have nobody : ∀ m, m ∉ (roster w).members.rows := by
      intro m hm
      rw [show (roster w).members.rows = [] from hmembers] at hm
      cases hm
    exact ⟨fun x hx => absurd hx (none x), fun m hm => absurd hm (nobody m),
      fun x hx => absurd hx (none x), fun _ ⟨x, hx, _⟩ => absurd hx (none x),
      fun _ ⟨x, hx, _⟩ => absurd hx (none x)⟩
  | request _ hc ih => exact ih.effect (effect_of_complete hc)
  | between _ hk ih => exact hk.roster ▸ ih

/-- **Roles and succession.** A group with members has one owner, who gives it up only by leaving
it, when the heir takes over and nobody else's role changes, or by handing it over; a direct room
has members only, who leave by themselves. -/
theorem role_discipline (json : Json) {w : World} (h : Reachable json w) :
    (∀ r, HasType w.db r .GROUP → Manned (crew w.db.roomMembers r) →
      ∃! u, Leads owner (crew w.db.roomMembers r) u) ∧
    (∀ r, HasType w.db r .DIRECT → Plain r w.db.roomMembers) ∧
    ∀ call w', Complete json call w w' → ∀ r u,
      (HasType w.db r .GROUP → Leads owner (crew w.db.roomMembers r) u →
        (¬ Leads owner (crew w'.db.roomMembers r) u →
          (call = .removeMember r u u ∧ crew w'.db.roomMembers r u = none) ∨
            ∃ t, call = .updateMemberRole r u t .OWNER ∧
              Leads owner (crew w'.db.roomMembers r) t) ∧
        (crew w'.db.roomMembers r u = none → Manned (crew w'.db.roomMembers r) →
          ∃ next, Heir (Function.update (crew w.db.roomMembers r) u none) next ∧
            Leads owner (crew w'.db.roomMembers r) next.userId ∧
            ∀ v, v ≠ u → v ≠ next.userId →
              crew w'.db.roomMembers r v = crew w.db.roomMembers r v)) ∧
      (HasType w.db r .DIRECT → crew w.db.roomMembers r u ≠ none →
        crew w'.db.roomMembers r u = none → call = .removeMember r u u) := by
  have hs := sound_of_reachable h
  refine ⟨fun r hg => governed_iff.1 (hs.governed r hg), hs.plain, fun call w' hc r u => ?_⟩
  have he := effect_of_complete hc
  refine ⟨fun hg hu => ?_, fun hd hsome hno => ?_⟩
  · have hchange := he.crewChange hs hg
    have hgov := hs.governed r hg
    exact ⟨hchange.resigned hgov hu, hchange.succession hgov hu⟩
  · obtain ⟨m, hm⟩ := Option.ne_none_iff_exists'.1 hsome
    exact he.direct_stays hs hd hm hno

def createR1 : Call := .createRoom "a" { type := .GROUP, memberUserIds := ["b"] }

theorem complete_of_run {json : Json} {call : Call} {w : World} {P : Pool World Pc Unit}
    (hrun : Run (machine json) Discipline.free (fun _ => call)
      ((machine json).initial (fun _ => call) w) P) (hdone : isDone (P.pcs ()) = true) :
    Complete json call w P.shared := by
  obtain ⟨x, hx⟩ := isDone_done hdone
  exact ⟨x, hx ▸ hrun.solo⟩

/-- `a` creates the group `r1` with `b` and leaves it. -/
theorem role_discipline_r1 : ∃ w w', Reachable noJson w ∧
    Complete noJson (.removeMember "r1" "a" "a") w w' ∧
    ∃ next, Heir (Function.update (crew w.db.roomMembers "r1") "a" none) next ∧
      Leads owner (crew w'.db.roomMembers "r1") next.userId := by
  let create := [turn (), turn () { id := "r1" }] ++ turns () 6 ++ announce () "m1" 2
  let row : RoomMember := { roomId := "r1", userId := "b", joinedAt := 0 }
  let leave := turns () 4 ++ [turn () { members := [row] }, turn ()] ++ turns () 2 ++
    announce () "m2" 3
  let play (call : Call) (w : World) := (machine noJson).exec always (fun _ : Unit => call)
    ((machine noJson).initial (fun _ => call) w)
  have hexec : (play createR1 { db.users := usersAB } create).any (fun Q => isDone (Q.pcs ()) &&
      (crew Q.shared.db.roomMembers "r1" "a").any (·.role == .OWNER) &&
      Q.shared.db.rooms.rows.any (fun x => x.id == "r1" && x.type == .GROUP) &&
      (play (.removeMember "r1" "a" "a") Q.shared leave).any fun P => isDone (P.pcs ()) &&
        (crew P.shared.db.roomMembers "r1" "a").isNone &&
        (crew P.shared.db.roomMembers "r1" "b").isSome) = true := by decide
  obtain ⟨Q, hQ, hq⟩ := Machine.exec_reaches_free hexec
  simp only [Bool.and_eq_true, List.any_eq_true, beq_iff_eq] at hq
  obtain ⟨⟨⟨hQdone, hlead⟩, x, hx, hid, htype⟩, hrest⟩ := hq
  obtain ⟨P, hP, hp⟩ := Machine.exec_reaches_free hrest
  simp only [Bool.and_eq_true, Option.isNone_iff_eq_none, Option.isSome_iff_exists] at hp
  obtain ⟨⟨hPdone, hgone⟩, m, hm⟩ := hp
  have hreach : Reachable noJson Q.shared := .request (.empty rfl rfl) (complete_of_run hQ hQdone)
  have hleave := complete_of_run hP hPdone
  obtain ⟨-, hsucc⟩ := ((role_discipline noJson hreach).2.2 _ _ hleave "r1" "a").1
    ⟨roomStub x, roomStub_mem hx, hid, htype⟩ (leads_owner_iff.2 hlead)
  obtain ⟨next, hheir, hnext, -⟩ := hsucc hgone ⟨"b", m, hm⟩
  exact ⟨_, _, hreach, hleave, next, hheir, hnext⟩

end Intaktok.Rooms
