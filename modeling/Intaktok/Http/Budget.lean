import Intaktok.Http.Cleared
import Intaktok.Realtime.Budget
/-
# No request goes on for ever

However the program is interleaved, and whatever becomes of the tables in between: a request, an
event or a listener takes no more than a fixed number of actions, and so many more as there are
on the lists it comes with (`ends_soon`). No retry of `persistWithSeq` and no race that is lost
makes it take another turn beyond that.
-/

namespace Intaktok

open Interleave Tables

/-! ## The lists -/

@[simp] def Messages.ListPc.rank : Messages.ListPc → ℕ
  | .rows => 2
  | .members _ => 1
  | .done _ => 0

theorem Messages.rank_listStep {other : String → Messages.Numeric} {roomId : String}
    {cursor : Option String} {limit : ℕ} {w : World} {pc pc' : Messages.ListPc}
    (h : Messages.listStep other roomId cursor limit w pc = some pc') :
    pc'.rank + 1 ≤ pc.rank := by
  cases pc with
  | rows =>
    cases h
    split
    · simp
    · split
      · simp
      · simp
      · split <;> simp
  | members rows => cases h; simp
  | done r => cases h

/-- `limit` is the greatest number of rooms on the page. -/
@[simp] def Rooms.ListPc.rank (limit : ℕ) : Rooms.ListPc → ℕ
  | .rows => limit + 2
  | .avatars entries _ _ => entries.length + 1
  | .unread _ todo _ _ _ => todo.length + 1
  | .done _ => 0

@[simp] theorem Rooms.rank_countNext (limit : ℕ) (found : List String) (nextCursor : Option String)
    (items : List RoomView) (todo : List Rooms.Entry) :
    (Rooms.countNext found nextCursor items todo).rank limit = todo.length := by
  cases todo <;> rfl

theorem Rooms.length_entries (db : Db) (limit : ℕ) (rows : List RoomMember) :
    (Rooms.entries db (Paging.page limit rows)).length ≤ limit :=
  (List.length_filterMap_le ..).trans (Paging.length_page limit rows)

theorem Rooms.rank_listStep {json : Messages.Json} {other : String → Option Int}
    {order : (db : Db) → Rooms.Sorting db} {userId : String} {cursor : Option String} {limit : ℕ}
    {db : Db} {pc pc' : Rooms.ListPc}
    (h : Rooms.listStep json other order userId cursor limit db pc = some pc') :
    pc'.rank limit + 1 ≤ pc.rank limit := by
  cases pc with
  | rows =>
    have hrows : ∀ rows, (Rooms.afterRows db limit rows).rank limit + 1 ≤ limit + 2 := by
      intro rows
      have hlength := Rooms.length_entries db limit rows
      unfold Rooms.afterRows
      dsimp only
      split
      · rw [Rooms.rank_countNext]; omega
      · exact Nat.succ_le_succ (Nat.succ_le_succ hlength)
    cases h
    split
    · exact hrows _
    · split
      · simp
      · exact hrows _
  | avatars entries ids nextCursor =>
    cases h
    rw [Rooms.rank_countNext]
    exact le_rfl
  | unread entry todo found items nextCursor =>
    cases h
    split
    · simp
    · rw [Rooms.rank_countNext]
      exact le_rfl
  | done r => cases h

@[simp] def UsersService.SearchPc.rank : UsersService.SearchPc → ℕ
  | .rows => 2
  | .avatars _ _ => 1
  | .done _ => 0

theorem UsersService.rank_searchStep {κ : Type} [LinearOrder κ]
    {ids : UsersService.Collation κ} {fold : UsersService.Folding} {requesterId : String}
    {dto : UsersService.SearchUsersDto} {db : Db} {pc pc' : UsersService.SearchPc}
    (h : UsersService.searchStep ids fold requesterId dto db pc = some pc') :
    pc'.rank + 1 ≤ pc.rank := by
  cases pc with
  | rows =>
    cases h
    split
    · unfold UsersService.afterProfiles
      dsimp only
      split <;> simp
    · simp
  | avatars profiles mediaIds => cases h; simp
  | done r => cases h

namespace Http

open Realtime

/-! ## The queries -/

@[simp] def QueryPc.rank (limit : ℕ) : QueryPc → ℕ
  | .user => 2
  | .meAvatar _ _ _ => 1
  | .share => 3
  | .profile => 2
  | .profileAvatar _ _ _ => 1
  | .users pc => pc.rank
  | .rooms pc => pc.rank limit
  | .room pc => pc.rank
  | .messages pc => pc.rank
  | .whitelist => 1
  | .accessRequests => 1
  | .done _ => 0

section Next
variable (limit : ℕ)

@[simp] theorem rank_usersNext (pc : UsersService.SearchPc) :
    (usersNext pc).rank limit = pc.rank := by cases pc <;> rfl

@[simp] theorem rank_roomsNext (pc : Rooms.ListPc) :
    (roomsNext pc).rank limit = pc.rank limit := by cases pc <;> rfl

@[simp] theorem rank_roomNext (pc : Rooms.ViewPc) : (roomNext pc).rank limit = pc.rank := by
  cases pc <;> rfl

@[simp] theorem rank_messagesNext (pc : Messages.ListPc) :
    (messagesNext pc).rank limit = pc.rank := by cases pc <;> rfl

end Next

/-- How many rooms there may be on the page. -/
def Query.load : Query → ℕ
  | .listRooms _ _ limit => limit
  | _ => 0

theorem rank_meStep {cfg : AppConfig} {adminIds : List String} {userId : String} {db : Db}
    {pc pc' : QueryPc} (h : meStep cfg adminIds userId db pc = some pc') (limit : ℕ) :
    pc'.rank limit + 1 ≤ pc.rank limit := by
  unfold meStep at h
  split at h <;> cases h
  · split
    · simp [QueryPc.fail]
    · dsimp only
      split <;> simp
  · simp

theorem rank_getProfileStep {cfg : AppConfig} {target requester : String} {db : Db}
    {pc pc' : QueryPc} (h : getProfileStep cfg target requester db pc = some pc') (limit : ℕ) :
    pc'.rank limit + 1 ≤ pc.rank limit := by
  unfold getProfileStep at h
  split at h <;> cases h
  · split <;> simp [QueryPc.fail]
  · split
    · simp [QueryPc.fail]
    · dsimp only
      split <;> simp
  · simp

theorem rank_queryStep {d : QueryDeps} {orders : Orders} {q : Query} {w : World}
    {pc pc' : QueryPc} (h : queryStep d orders q w pc = some pc') :
    pc'.rank q.load + 1 ≤ pc.rank q.load := by
  unfold queryStep at h
  split at h
  · exact rank_meStep h _
  · exact rank_getProfileStep h _
  · obtain ⟨pc₁, hsearch, rfl⟩ := Option.map_eq_some_iff.1 h
    rw [rank_usersNext]
    let := d.ids
    exact UsersService.rank_searchStep hsearch
  · obtain ⟨pc₁, hlist, rfl⟩ := Option.map_eq_some_iff.1 h
    rw [rank_roomsNext]
    exact Rooms.rank_listStep hlist
  · obtain ⟨pc₁, hview, rfl⟩ := Option.map_eq_some_iff.1 h
    rw [rank_roomNext]
    exact Rooms.rank_viewStep hview
  · obtain ⟨pc₁, hlist, rfl⟩ := Option.map_eq_some_iff.1 h
    rw [rank_messagesNext]
    exact Messages.rank_listStep hlist
  · cases h; exact le_rfl
  · cases h; exact le_rfl
  · cases h

theorem Query.rank_start (q : Query) : q.start.rank q.load ≤ 3 + q.load := by
  cases q with
  | getProfile target requester =>
    simp only [Query.start]
    split <;> simp [Query.load]
  | listRooms userId cursor limit => exact (Nat.add_comm limit 2).le.trans (by simp [Query.load])
  | _ => simp [Query.start, Query.load, Rooms.ViewPc.rank]

/-! ## Typing -/

@[simp] def TypingPc.rank : TypingPc → ℕ
  | .received => 3
  | .member _ => 2
  | .recipients _ _ => 1
  | .done => 0

theorem rank_typingStep {id : String} {roomId : JsValue} {isTyping : Bool} {s s' : Site}
    {pc pc' : TypingPc} (h : typingStep id roomId isTyping s pc = some (s', pc')) :
    pc'.rank + 1 ≤ pc.rank := by
  cases pc <;> simp only [typingStep] at h
  case received => cases h; simp
  case member userId =>
    cases h
    split
    · split <;> simp
    · simp
  case recipients r u => cases h; simp
  case done => cases h

/-! ## Guards -/

variable (d : Deps)

/-- What is left to a request once its method is called. -/
def Request.body (req : Request) : ℕ :=
  match req.handler d with
  | .serve s call => ServerPc.rank (.inr ⟨s, call⟩) ((back d).start (.inr ⟨s, call⟩))
  | .query q => q.start.rank q.load
  | .ended _ => 0

def FrontPc.cost : FrontPc → ℕ
  | .server pc => ServerPc.cost pc
  | _ => 1

/-- How many rooms the request may be asking for. -/
def Request.load (req : Request) : ℕ :=
  match req.handler d with
  | .query q => q.load
  | _ => 0

/-- What is left to a request while its guards are asked, and after. -/
def Request.rank (req : Request) : FrontPc → ℕ
  | .throttle => req.body d + (req.guards d).length + 3
  | .token => req.body d + (req.guards d).length + 2
  | .account => req.body d + (req.guards d).length + 1
  | .guards todo => req.body d + todo.length
  | .server pc => ServerPc.rank ((FrontCall.http req).call d) pc
  | .query pc => pc.rank (req.load d)
  | _ => 0

def FrontCall.rank : FrontCall → FrontPc → ℕ
  | .http req, pc => req.rank d pc
  | .typing _ _ _, .typing pc => pc.rank
  | k, .server pc => ServerPc.rank (k.call d) pc
  | _, _ => 0

variable {d}

theorem rank_enter (req : Request) : req.rank d (enter d req) = req.body d := by
  unfold enter Request.body
  cases h : req.handler d <;> simp only [Request.rank, Request.load, FrontCall.call, h]

theorem rank_passed (req : Request) : req.rank d (passed d req) ≤ req.body d := by
  unfold passed
  split
  · exact Nat.zero_le _
  · exact (rank_enter req).le

theorem rank_proceed (req : Request) (todo : List Guard) :
    req.rank d (proceed d req todo) ≤ req.body d + todo.length := by
  cases todo with
  | nil => exact rank_passed req
  | cons g todo => exact le_rfl

theorem rank_guardStep {c : FrontChoice} {req : Request} {w : World} {pc pc' : FrontPc}
    (h : guardStep d c req w pc = some pc') :
    req.rank d pc' + pc.cost ≤ req.rank d pc := by
  have hrefused : ∀ r, req.rank d (.ended r) = 0 := fun _ => rfl
  unfold guardStep at h
  split at h
  · cases h
    have hpassed := rank_passed (d := d) req
    change _ + 1 ≤ req.body d + (req.guards d).length + 3
    split
    · rw [hrefused]; omega
    · split
      · exact le_rfl
      · omega
  · cases h
    change _ + 1 ≤ req.body d + (req.guards d).length + 2
    split
    · exact Nat.le_add_left _ _
    · split
      · exact le_rfl
      · exact Nat.le_add_left _ _
  · cases h
    have hproceed := rank_proceed (d := d) req (req.guards d)
    change _ + 1 ≤ req.body d + (req.guards d).length + 1
    split
    · exact Nat.le_add_left _ _
    · omega
  · rename_i g todo
    cases h
    have hproceed := rank_proceed (d := d) req todo
    change _ + 1 ≤ req.body d + (todo.length + 1)
    split
    · exact Nat.le_add_left _ _
    · omega
  · cases h

theorem FrontCall.rank_server (k : FrontCall) (pc : ServerPc) :
    k.rank d (.server pc) = ServerPc.rank (k.call d) pc := by
  cases k <;> rfl

/-- No action of the program costs more than it takes off the rank. -/
theorem bounded_front (d : Deps) : Bounded (front d) FrontPc.cost (FrontCall.rank d) := by
  intro c k s l s' l' hs
  cases acts_of_front hs with
  | served hserved =>
    rw [FrontCall.rank_server, FrontCall.rank_server]
    exact bounded_server _ _ _ hserved
  | typed ht => exact rank_typingStep ht
  | @queried req q _ _ hh hq =>
    have hload : req.load d = q.load := by rw [Request.load, hh]
    have hstep := rank_queryStep hq
    change QueryPc.rank (req.load d) _ + 1 ≤ QueryPc.rank (req.load d) _
    rwa [hload]
  | guarded hguard => exact rank_guardStep hguard

/-! ## What there is to spend -/

/-- How many there are on the lists a call comes with, and how many rooms on the page it may be
asking for. -/
def FrontCall.load (d : Deps) (k : FrontCall) : ℕ :=
  ServerCall.load (k.call d) + match k with
    | .http req => req.load d
    | _ => 0

theorem Request.body_le (req : Request) :
    req.body d ≤ (FrontCall.http req).load d + 91 := by
  unfold Request.body FrontCall.load
  dsimp only
  unfold Request.load
  cases h : req.handler d with
  | serve s call =>
    simp only [FrontCall.call, h]
    exact Realtime.rank_start _ _ _ _
  | query q =>
    have hstart := q.rank_start
    simp only
    omega
  | ended r => exact Nat.zero_le _

theorem Request.guards_le (req : Request) : (req.guards d).length ≤ 2 := by
  have hle : (req.route.guards.getD []).length ≤ 2 := by
    cases req.route <;> simp [Route.guards]
  unfold Request.guards
  dsimp only
  split
  · exact (List.length_erase_le).trans hle
  · exact hle

theorem FrontCall.rank_start (k : FrontCall) :
    k.rank d (k.start d) ≤ 96 + k.load d := by
  have hserver : ServerPc.rank (k.call d) ((back d).start (k.call d)) ≤ 96 + k.load d := by
    have hstart := Realtime.rank_start d.cfg d.decode d.json (k.call d)
    change _ ≤ 96 + (ServerCall.load (k.call d) + _)
    exact hstart.trans (by omega)
  cases k with
  | http req =>
    have hbody := req.body_le (d := d)
    have hguards := req.guards_le (d := d)
    change req.body d + (req.guards d).length + 3 ≤ _
    omega
  | typing id roomId isTyping => exact Nat.le_add_right_of_le (Nat.le_of_ble_eq_true rfl)
  | socket | boot | listener | put => exact hserver

variable {ι : Type} [DecidableEq ι]

/-- **No request goes on for ever.** -/
theorem ends_soon {D : Discipline Site FrontCall FrontPc} {calls : ι → FrontCall} {site : Site}
    {i : ι} {n : ℕ} {Q : Pool Site FrontPc ι}
    (h : Spends (front d) D calls FrontPc.cost i ((front d).initial calls site) n Q) :
    n ≤ 96 + (calls i).load d := by
  have hspent := h.le (bounded_front d)
  have hstart : (calls i).rank d (((front d).initial calls site).pcs i) ≤
      96 + (calls i).load d := (calls i).rank_start
  omega

theorem ends_soon_invite : ∃ (n : ℕ) (Q : Pool Site FrontPc Unit),
    Q.shared.hub.world.db.whitelist.rows.any (·.kakaoId == some "k9") = true ∧
    Spends (front depsAB) Discipline.free (fun _ => .http invite) FrontPc.cost ()
      ((front depsAB).initial (fun _ => .http invite) siteAB) n Q ∧ n ≤ 96 := by
  have hexec : ((front depsAB).exec always (fun _ => .http invite)
      ((front depsAB).initial (fun _ => .http invite) siteAB) (plays () 6 { id := "w1" })).any
      (fun Q => Q.shared.hub.world.db.whitelist.rows.any (·.kakaoId == some "k9")) = true := by
    decide
  obtain ⟨Q, hrun, hQ⟩ := Machine.exec_reaches_free hexec
  obtain ⟨n, hspends⟩ := hrun.spends FrontPc.cost ()
  exact ⟨n, Q, hQ, hspends, ends_soon hspends⟩

end Http

end Intaktok
