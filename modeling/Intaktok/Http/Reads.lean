import Intaktok.Http.Footprints
/-
# What a request is told

An answer is put together by several queries, and between them others write: a page of messages
may be older than the members it counts. What it is about has been read by one of them. At that
moment the tables held it (`Query.Drawn`), and before it the request had passed its guards and, for
the profile of another user, `shareRoom` (`Query.Admits`). That is `reads_inside`.
-/

namespace Intaktok.Http

open Interleave Tables Realtime

/-- What a query asks for itself, beside the guards. -/
def Query.Admits (db : Db) : Query → Prop
  | .getProfile targetUserId requesterId =>
    requesterId = targetUserId ∨ shareRoom db requesterId targetUserId = true
  | _ => True

/-- What a query is about has been read. -/
def QueryPc.drawn : QueryPc → Bool
  | .meAvatar _ _ _ | .profileAvatar _ _ _ | .users (.avatars _ _) | .rooms (.avatars _ _ _)
  | .rooms (.unread _ _ _ _ _) | .room (.avatars _ _) | .room (.unread _ _ _)
  | .messages (.members _) | .done (.ok _) => true
  | _ => false

section Lists
variable (d : Deps) (db : Db)

def UsersDrawn (requesterId : String) (dto : UsersService.SearchUsersDto) :
    UsersService.SearchPc → Prop :=
  letI := d.ids
  let limit := dto.limit.getD 50
  let profiles := (dto.found d.collation d.fold requesterId db).take (limit + 1)
  fun
  | .avatars found _ => found = profiles
  | .done (.ok page) => ∃ avatars, UsersService.searchPage limit profiles avatars = .ok page
  | _ => False

/-- The rooms of a page, the cursor of the request being `before`, and the cursor of the next. -/
def RoomsRead (userId : String) (cursor : Option String) (limit : Nat)
    (entries : List Rooms.Entry) (nextCursor : Option String) : Prop :=
  ∃ (order : Rooms.Sorting db) (before : Option Int),
    (truthy cursor).map (Rooms.dateOf d.dates) = before.map some ∧
    let rows := (order.sort (Rooms.memberships db userId before)).take (limit + 1)
    entries = Rooms.entries db (Paging.page limit rows) ∧
      nextCursor = Rooms.nextCursorOf db limit rows

/-- The items are views of the rooms, in their order. -/
def Shows (found : List String) (entries : List Rooms.Entry) (items : List RoomView) : Prop :=
  List.Forall₂ (fun e item => ∃ unreadCount,
    Rooms.buildView d.json e.2 found unreadCount = some item) entries items

def RoomsDrawn (userId : String) (cursor : Option String) (limit : Nat) : Rooms.ListPc → Prop
  | .avatars entries _ nextCursor => RoomsRead d db userId cursor limit entries nextCursor
  | .unread entry todo found items nextCursor => ∃ counted,
      RoomsRead d db userId cursor limit (counted ++ entry :: todo) nextCursor ∧
      Shows d found counted items
  | .done (.ok page) => ∃ entries found,
      RoomsRead d db userId cursor limit entries page.nextCursor ∧ Shows d found entries page.items
  | _ => False

/-- The messages of a page, the cursor of the request being `before`. -/
def MessagesRead (roomId : String) (cursor : Option String) (limit : Nat) (rows : List Message) :
    Prop :=
  ∃ before : Option Int,
    (truthy cursor).map (Messages.number d.other) = before.map .int ∧
    rows = (Messages.history db roomId before).take (limit + 1)

end Lists

/-- What has been read is what the tables hold. -/
def Query.Drawn (d : Deps) (db : Db) : Query → QueryPc → Prop
  | .me userId, .meAvatar user profile _ => db.users.find (·.id == userId) = some user ∧
      db.profiles.find (·.userId == userId) = some profile
  | .me userId, .done (.ok (.me answer)) => ∃ user avatarUrl,
      db.users.find (·.id == userId) = some user ∧
      answer = meAnswer d.adminIds user (db.profiles.find (·.userId == userId)) avatarUrl
  | .getProfile targetUserId _, .profileAvatar p lastSeenAt _ =>
    db.profiles.find (·.userId == targetUserId) = some p ∧
      lastSeenAt = db.lastSeenAt.lookup targetUserId
  | .getProfile targetUserId _, .done (.ok (.profile profile)) => ∃ p avatarUrl,
      db.profiles.find (·.userId == targetUserId) = some p ∧
      profile = profileAnswer targetUserId p avatarUrl (db.lastSeenAt.lookup targetUserId)
  | .search requesterId dto, .users pc => UsersDrawn d db requesterId dto pc
  | .search requesterId dto, .done (.ok (.users page)) =>
    UsersDrawn d db requesterId dto (.done (.ok page))
  | .listRooms userId cursor limit, .rooms pc => RoomsDrawn d db userId cursor limit pc
  | .listRooms userId cursor limit, .done (.ok (.rooms page)) =>
    RoomsDrawn d db userId cursor limit (.done (.ok page))
  | .getRoomView roomId _, .room (.avatars r _) | .getRoomView roomId _, .room (.unread r _ _) =>
    Rooms.loadRoom db roomId = some r
  | .getRoomView roomId _, .done (.ok (.room room)) => ∃ r found unreadCount,
      Rooms.loadRoom db roomId = some r ∧
      Rooms.buildView d.json r found unreadCount = some room
  | .listMessages roomId cursor limit, .messages (.members rows) =>
    MessagesRead d db roomId cursor limit rows
  | .listMessages roomId cursor limit, .done (.ok (.messages page)) => ∃ rows members,
      MessagesRead d db roomId cursor limit rows ∧
      Messages.listPage limit rows members = .ok page
  | .list dto, .done (.ok (.whitelist page)) => ∃ order,
      Admin.list d.dates order db dto = .ok page
  | .listAccessRequests dto, .done (.ok (.accessRequests page)) => ∃ order,
      Admin.listAccessRequests d.dates order db dto = .ok page
  | _, _ => False

section Step
variable {d : Deps} {orders : Orders} {q : Query} {w : World} {pc pc' : QueryPc}

/-- One action reads what a query is about; the others keep it. -/
def Reads (d : Deps) (q : Query) (w : World) (pc pc' : QueryPc) : Prop :=
  q.Drawn d w.db pc' ∨ pc.drawn = true ∧ ∀ db, q.Drawn d db pc → q.Drawn d db pc'

theorem reads_me {userId : String}
    (hs : meStep d.cfg d.adminIds userId w.db pc = some pc') (hpc : pc'.drawn = true) :
    Reads d (.me userId) w pc pc' := by
  unfold meStep at hs
  split at hs <;> cases hs
  · split at hpc
    · cases hpc
    · rename_i user huser
      dsimp only at hpc ⊢
      split
      · rename_i p _ hp _
        exact .inl ⟨huser, hp⟩
      · exact .inl ⟨user, none, huser, rfl⟩
  · exact .inr ⟨rfl, fun db h => ⟨_, _, h.1, by rw [h.2]⟩⟩

theorem reads_getProfile {targetUserId requesterId : String}
    (hs : getProfileStep d.cfg targetUserId requesterId w.db pc = some pc')
    (hpc : pc'.drawn = true) : Reads d (.getProfile targetUserId requesterId) w pc pc' := by
  unfold getProfileStep at hs
  split at hs <;> cases hs
  · split at hpc <;> cases hpc
  · split at hpc
    · cases hpc
    · rename_i p hp
      dsimp only at hpc ⊢
      split
      · exact .inl ⟨hp, rfl⟩
      · exact .inl ⟨p, none, hp, rfl⟩
  · refine .inr ⟨rfl, ?_⟩
    rintro db ⟨hp, rfl⟩
    exact ⟨_, _, hp, rfl⟩

/-! ### Users -/

theorem drawn_usersNext {requesterId : String} {dto : UsersService.SearchUsersDto} {db : Db}
    {pc : UsersService.SearchPc} (h : UsersDrawn d db requesterId dto pc) :
    (Query.search requesterId dto).Drawn d db (usersNext pc) := by
  cases pc with
  | done r => cases r with
    | error e => cases h
    | ok page => exact h
  | _ => exact h

theorem drawn_searchPage {requesterId : String} {dto : UsersService.SearchUsersDto} {db : Db}
    {avatars : List String} {profiles : List Profile}
    (hprofiles : letI := d.ids; profiles =
      (dto.found d.collation d.fold requesterId db).take (dto.limit.getD 50 + 1))
    (hpc : (usersNext (.done (UsersService.searchPage (dto.limit.getD 50) profiles
      avatars))).drawn = true) :
    UsersDrawn d db requesterId dto
      (.done (UsersService.searchPage (dto.limit.getD 50) profiles avatars)) := by
  generalize hpage : UsersService.searchPage _ profiles avatars = r at hpc ⊢
  cases r with
  | error e => cases hpc
  | ok page => exact ⟨avatars, hprofiles ▸ hpage⟩

theorem reads_search {requesterId : String} {dto : UsersService.SearchUsersDto}
    {pc pc' : UsersService.SearchPc}
    (hs : letI := d.ids
      UsersService.searchStep d.collation d.fold requesterId dto w.db pc = some pc')
    (hpc : (usersNext pc').drawn = true) :
    Reads d (.search requesterId dto) w (.users pc) (usersNext pc') := by
  cases pc with
  | rows =>
    cases hs
    refine .inl (drawn_usersNext ?_)
    split at hpc <;> rename_i hstorable
    · rw [if_pos hstorable]
      unfold UsersService.afterProfiles at hpc ⊢
      dsimp only at hpc ⊢
      split at hpc <;> rename_i hempty
      · rw [if_pos hempty]
        exact drawn_searchPage rfl hpc
      · rw [if_neg hempty]
        exact rfl
    · cases hpc
  | avatars profiles ids =>
    cases hs
    exact .inr ⟨rfl, fun db h => drawn_usersNext (drawn_searchPage h hpc)⟩
  | done r => cases hs

/-! ### Rooms -/

section Rooms
variable {userId : String} {cursor : Option String} {limit : Nat} {db : Db}

theorem drawn_roomsNext {pc : Rooms.ListPc} (h : RoomsDrawn d db userId cursor limit pc) :
    (Query.listRooms userId cursor limit).Drawn d db (roomsNext pc) := by
  cases pc with
  | done r => cases r with
    | error e => cases h
    | ok page => exact h
  | _ => exact h

theorem drawn_countNext {found : List String} {nextCursor : Option String}
    {items : List RoomView} (counted : List Rooms.Entry) {todo : List Rooms.Entry}
    (hread : RoomsRead d db userId cursor limit (counted ++ todo) nextCursor)
    (hshows : Shows d found counted items) :
    RoomsDrawn d db userId cursor limit (Rooms.countNext found nextCursor items todo) := by
  cases todo with
  | nil => exact ⟨counted, found, by rwa [List.append_nil] at hread, hshows⟩
  | cons entry todo => exact ⟨counted, hread, hshows⟩

theorem drawn_afterRows {before : Option Int} (order : Rooms.Sorting db)
    (hbefore : (truthy cursor).map (Rooms.dateOf d.dates) = before.map some) :
    RoomsDrawn d db userId cursor limit (Rooms.afterRows db limit
      ((order.sort (Rooms.memberships db userId before)).take (limit + 1))) := by
  have hread : RoomsRead d db userId cursor limit _ _ := ⟨order, before, hbefore, rfl, rfl⟩
  unfold Rooms.afterRows
  dsimp only
  split
  · exact drawn_countNext [] hread .nil
  · exact hread

theorem reads_listRooms {pc pc' : Rooms.ListPc}
    (hs : Rooms.listStep d.json d.dates orders.rooms userId cursor limit w.db pc = some pc')
    (hpc : (roomsNext pc').drawn = true) :
    Reads d (.listRooms userId cursor limit) w (.rooms pc) (roomsNext pc') := by
  cases pc with
  | rows =>
    cases hs
    refine .inl (drawn_roomsNext ?_)
    split at hpc <;> rename_i hcursor
    · exact drawn_afterRows _ (by rw [hcursor]; rfl)
    · split at hpc <;> rename_i hdate
      · cases hpc
      · exact drawn_afterRows _ (by rw [hcursor, Option.map_some, hdate]; rfl)
  | avatars entries ids nextCursor =>
    cases hs
    exact .inr ⟨rfl, fun db h => drawn_roomsNext (drawn_countNext [] h .nil)⟩
  | unread entry todo found items nextCursor =>
    cases hs
    split at hpc
    · cases hpc
    · rename_i item hitem
      refine .inr ⟨rfl, ?_⟩
      rintro db ⟨counted, hread, hshows⟩
      refine drawn_roomsNext (drawn_countNext (counted ++ [entry]) ?_ ?_)
      · rwa [List.append_assoc]
      · exact List.rel_append hshows (.cons ⟨_, hitem⟩ .nil)
  | done r => cases hs

end Rooms

/-! ### A room -/

theorem drawn_built {roomId requesterId : String} {db : Db} {r : Rooms.RoomWithMembers}
    {found : List String} {n : Nat} (hload : Rooms.loadRoom db roomId = some r)
    (hpc : (roomNext (Rooms.built d.json r found n)).drawn = true) :
    (Query.getRoomView roomId requesterId).Drawn d db
      (roomNext (Rooms.built d.json r found n)) := by
  unfold Rooms.built at hpc ⊢
  split
  · rename_i room hview
    exact ⟨r, found, n, hload, hview⟩
  · rename_i hview
    rw [hview] at hpc
    cases hpc

theorem drawn_afterAvatars {roomId requesterId : String} {db : Db} {r : Rooms.RoomWithMembers}
    {found : List String} (hload : Rooms.loadRoom db roomId = some r)
    (hpc : (roomNext (Rooms.afterAvatars d.json requesterId r found)).drawn = true) :
    (Query.getRoomView roomId requesterId).Drawn d db
      (roomNext (Rooms.afterAvatars d.json requesterId r found)) := by
  unfold Rooms.afterAvatars at hpc ⊢
  split
  · exact hload
  · rename_i hnone
    rw [hnone] at hpc
    exact drawn_built hload hpc

theorem reads_getRoomView {roomId requesterId : String} {pc pc' : Rooms.ViewPc}
    (hs : Rooms.viewStep d.json roomId requesterId w pc = some pc')
    (hpc : (roomNext pc').drawn = true) :
    Reads d (.getRoomView roomId requesterId) w (.room pc) (roomNext pc') := by
  unfold Rooms.viewStep at hs
  split at hs <;> cases hs
  · split at hpc
    · cases hpc
    · rename_i r hload
      dsimp only at hpc ⊢
      split at hpc <;> rename_i hids
      · rw [if_pos hids]
        exact .inl (drawn_afterAvatars hload hpc)
      · rw [if_neg hids]
        exact .inl hload
  · exact .inr ⟨rfl, fun db hload => drawn_afterAvatars hload hpc⟩
  · exact .inr ⟨rfl, fun db hload => drawn_built hload hpc⟩

/-! ### Messages -/

theorem reads_listMessages {roomId : String} {cursor : Option String} {limit : Nat}
    {pc pc' : Messages.ListPc}
    (hs : Messages.listStep d.other roomId cursor limit w pc = some pc')
    (hpc : (messagesNext pc').drawn = true) :
    Reads d (.listMessages roomId cursor limit) w (.messages pc) (messagesNext pc') := by
  unfold Messages.listStep at hs
  split at hs <;> cases hs
  · dsimp only at hpc ⊢
    split at hpc <;> rename_i hcursor
    · exact .inl ⟨none, by rw [hcursor]; rfl, rfl⟩
    · split at hpc <;> rename_i hnumber
      · cases hpc
      · cases hpc
      · split at hpc <;> rename_i hc
        · cases hpc
        · rw [if_neg hc]
          exact .inl ⟨some _, by rw [hcursor, Option.map_some, hnumber]; rfl, rfl⟩
  · refine .inr ⟨rfl, fun db hread => ?_⟩
    generalize hpage : Messages.listPage limit _ _ = page at hpc ⊢
    cases page with
    | error => cases hpc
    | ok page => exact ⟨_, _, hread, hpage⟩

theorem reads_of_step (hs : queryStep d.toQueryDeps orders q w pc = some pc')
    (hpc : pc'.drawn = true) : Reads d q w pc pc' := by
  unfold queryStep at hs
  split at hs
  · exact reads_me hs hpc
  · exact reads_getProfile hs hpc
  · obtain ⟨_, hsearch, rfl⟩ := Option.map_eq_some_iff.1 hs
    exact reads_search hsearch hpc
  · obtain ⟨_, hlist, rfl⟩ := Option.map_eq_some_iff.1 hs
    exact reads_listRooms hlist hpc
  · obtain ⟨_, hview, rfl⟩ := Option.map_eq_some_iff.1 hs
    exact reads_getRoomView hview hpc
  · obtain ⟨_, hlist, rfl⟩ := Option.map_eq_some_iff.1 hs
    exact reads_listMessages hlist hpc
  · cases hs
    generalize hpage : Admin.list _ _ _ _ = page at hpc ⊢
    cases page with
    | error => cases hpc
    | ok page => exact .inl ⟨_, hpage⟩
  · cases hs
    generalize hpage : Admin.listAccessRequests _ _ _ _ = page at hpc ⊢
    cases page with
    | error => cases hpc
    | ok page => exact .inl ⟨_, hpage⟩
  · cases hs

/-- The query has not been turned away, nor is it to be asked for a room in common. -/
def QueryPc.letIn : QueryPc → Bool
  | .share | .done (.error _) => false
  | _ => true

theorem admits_of_start {db : Db} (h : q.start.letIn = true) : q.Admits db := by
  cases q with
  | getProfile targetUserId requesterId =>
    simp only [Query.start] at h
    split at h
    · rename_i heq
      exact .inl heq
    · cases h
  | _ => trivial

theorem admits_of_step (hs : queryStep d.toQueryDeps orders q w pc = some pc')
    (hin : pc'.letIn = true) : pc.letIn = true ∨ q.Admits w.db := by
  cases pc with
  | share =>
    cases q <;> cases hs
    split at hin
    · rename_i hshare
      exact .inr (.inr hshare)
    · cases hin
  | done r =>
    cases r with
    | ok => exact .inl rfl
    | error => cases q <;> cases hs
  | _ => exact .inl rfl

/-- What the query is about is not read before it is let in. -/
theorem letIn_of_reads (hs : queryStep d.toQueryDeps orders q w pc = some pc')
    (hpc : pc'.drawn = true) : pc.letIn = true := by
  cases pc with
  | share =>
    cases q <;> cases hs
    split at hpc <;> cases hpc
  | done r =>
    cases r with
    | ok => rfl
    | error => cases q <;> cases hs
  | _ => rfl

end Step

/-! ## Runs -/

section Runs
variable {ι : Type} [DecidableEq ι] (d : Deps) (D : Discipline Site FrontCall FrontPc)
  (calls : ι → FrontCall) (P : Pool Site FrontPc ι)

/-- The request has passed its guards, and what the query asks for was the case. -/
def LetIn (req : Request) (q : Query) (R : Pool Site FrontPc ι) : Prop :=
  Met (front d) D calls P
    (fun S => q.Admits S.shared.hub.world.db ∧ InTurn (front d) D calls P (req.checks d) S) R

/-- What `pc` is about was in the tables, after the request had been let in. -/
def ReadInside (req : Request) (q : Query) (pc : QueryPc) (R : Pool Site FrontPc ι) : Prop :=
  Met (front d) D calls P
    (fun S => q.Drawn d S.shared.hub.world.db pc ∧ LetIn d D calls P req q S) R

variable {d D calls} {site : Site} {Q : Pool Site FrontPc ι} {i : ι} {req : Request} {q : Query}
  {pc : QueryPc}

theorem guarded_of_query (hq : req.handler d = .query q) : req.route.guards.isSome = true := by
  obtain ⟨bearer, route⟩ := req
  cases route <;> simp only [Request.handler, Route.handler] at hq <;>
    first | rfl | cases hq | (split at hq <;> cases hq)

theorem letIn_run (hcall : calls i = .http req) (hq : req.handler d = .query q)
    (hrun : Run (front d) D calls ((front d).initial calls site) Q) (hpc : Q.pcs i = .query pc)
    (hin : pc.letIn = true) : LetIn d D calls ((front d).initial calls site) req q Q := by
  have hmet := hrun.passed (p := fun k l => k = .http req ∧ ∃ pc, l = .query pc ∧ pc.letIn = true)
    (φ := fun _ s l => q.Admits s.hub.world.db ∧ l.called = true) ?_ ?_ i ⟨hcall, pc, hpc, hin⟩
  · obtain ⟨S, h₁, ⟨hadmits, hcalled⟩, h₂⟩ := hmet
    exact ⟨S, h₁, ⟨hadmits, cleared_run hcall (guarded_of_query hq) h₁
      (cleared_of_called (guardsItself_of_query hq) hcalled)⟩, h₂⟩
  · rintro j ⟨hj, pc, hpc, -⟩
    simp only [Machine.initial, hj] at hpc
    cases hpc
  · rintro c k s l s' l' hs ⟨rfl, pc', rfl, hin⟩
    cases acts_of_front hs with
    | queried hq' hstep =>
      cases hq.symm.trans hq'
      rcases admits_of_step hstep hin with hbefore | hadmits
      · exact .inl ⟨rfl, _, rfl, hbefore⟩
      · exact .inr (.inl ⟨hadmits, rfl⟩)
    | guarded hguard =>
      obtain rfl := query_of_guardStep hq hguard
      exact .inr (.inr ⟨admits_of_start hin, rfl⟩)

theorem readInside_run (hcall : calls i = .http req) (hq : req.handler d = .query q)
    (hrun : Run (front d) D calls ((front d).initial calls site) Q) (hpc : Q.pcs i = .query pc)
    (hdrawn : pc.drawn = true) :
    ReadInside d D calls ((front d).initial calls site) req q pc Q := by
  refine hrun.invariant (fun R => ∀ pc, R.pcs i = .query pc → pc.drawn = true →
    ReadInside d D calls ((front d).initial calls site) req q pc R) ?_ ?_ ?_ pc hpc hdrawn
  · intro pc hpc
    simp only [Machine.initial, hcall] at hpc
    cases hpc
  · intro R j c s' l' hr hI ha hs pc hpc hdrawn
    have hmove := Run.refl.move ha hs
    by_cases hj : i = j
    · subst hj
      simp only [Function.update_self] at hpc
      subst hpc
      rw [hcall] at hs
      generalize hl : R.pcs i = l at hs
      cases acts_of_front hs with
      | queried hq' hstep =>
        cases hq.symm.trans hq'
        rcases reads_of_step hstep hdrawn with hnow | ⟨hbefore, hkeeps⟩
        · have hin := letIn_run hcall hq hr hl (letIn_of_reads hstep hdrawn)
          exact (hr.met ⟨hnow, hin⟩).trans hmove
        · obtain ⟨S, h₁, ⟨hthen, hin⟩, h₂⟩ := hI _ hl hbefore
          exact ⟨S, h₁, ⟨hkeeps _ hthen, hin⟩, h₂.trans hmove⟩
      | guarded hguard =>
        obtain rfl := query_of_guardStep hq hguard
        cases q <;> simp only [Query.start] at hdrawn
        all_goals first | cases hdrawn | (split at hdrawn <;> cases hdrawn)
    · exact (hI pc (by simpa only [Function.update_of_ne hj] using hpc) hdrawn).trans hmove
  · intro R e hI pc hpc hdrawn
    exact (hI pc hpc hdrawn).trans (Run.refl.env e)

/-- **Reads inside.** Whatever is in flight: what a request has been answered was in the tables at a
moment after it had passed its guards and, for the profile of another, had been found to share a
room with him. -/
theorem reads_inside {answer : Answer} (hcall : calls i = .http req)
    (hq : req.handler d = .query q)
    (hrun : Run (front d) D calls ((front d).initial calls site) Q)
    (hanswer : (Q.pcs i).answer = some answer) :
    ReadInside d D calls ((front d).initial calls site) req q (.done (.ok answer)) Q :=
  readInside_run hcall hq hrun (FrontPc.answer_eq_some.1 hanswer) rfl

end Runs

/-! ### `b` looks at the profile of `a` -/

def lookAtA : Request where
  bearer := some "b"
  route := .getProfile "a"

theorem reads_inside_b : ∃ (Q : Pool Site FrontPc Unit) (answer : Answer),
    (Q.pcs ()).answer = some answer ∧
    ReadInside depsAB Discipline.free (fun _ => .http lookAtA)
      ((front depsAB).initial (fun _ => .http lookAtA) siteAB) lookAtA (.getProfile "a" "b")
      (.done (.ok answer)) Q := by
  have hexec : ((front depsAB).exec always (fun _ => .http lookAtA)
      ((front depsAB).initial (fun _ => .http lookAtA) siteAB) (plays () 6)).any
      (fun Q => (Q.pcs ()).answer.isSome) = true := by decide
  obtain ⟨Q, hrun, hQ⟩ := Machine.exec_reaches_free hexec
  obtain ⟨answer, hanswer⟩ := Option.isSome_iff_exists.1 hQ
  exact ⟨Q, answer, hanswer, reads_inside rfl rfl hrun hanswer⟩

end Intaktok.Http
