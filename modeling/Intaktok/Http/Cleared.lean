import Intaktok.Http.Refines
import Intaktok.Realtime.RoomDelivery
/-
# No request is served before its guards

Between one guard and the next, and between the last one and the method, others write: what a guard
has found holds of an earlier state only. What is left is that the request has met it, after the
token and the account and in the order of `@UseGuards` (`Request.checks`, `front_refines`). Four
requests to a room meet the last of their guards in the first action of their service
(`guard_of_served`).
-/

namespace Intaktok.Http

open Interleave Tables Realtime

variable {d : Deps}

/-! ## What is asked -/

/-- The token is an access token the server has signed, and has not expired. -/
def Request.Presents (d : Deps) (req : Request) (s : Site) : Prop :=
  ∃ jwt, req.jwt d = some jwt ∧ jwt.type = .access ∧
    s.hub.world.verifyAsync jwt d.cfg.accessSecret = true

def Request.ActiveAccount (d : Deps) (req : Request) (s : Site) : Prop :=
  ∃ u ∈ s.hub.world.db.users.rows, u.id = req.userId d ∧ u.status = .ACTIVE

def Guard.Holds (adminIds : List String) (db : Db) (userId roomId : String) : Guard → Prop
  | .onboarded => ∃ p ∈ db.profiles.rows, p.userId = userId ∧ p.onboardedAt.isSome = true
  | .admin => IsAdmin adminIds db userId
  | .roomMember => userId ∈ Messages.getActiveMemberIds db roomId

theorem Guard.holds_of_check {adminIds : List String} {db : Db} {userId roomId : String}
    {g : Guard} (h : g.check adminIds db userId roomId = none) :
    g.Holds adminIds db userId roomId := by
  cases g with
  | onboarded =>
    simp only [Guard.check, requireOnboarded] at h
    split at h
    · cases h
    · split at h
      · rename_i hp
        obtain ⟨p, hf, ho⟩ := (Option.any_eq_true _ _).1 hp
        obtain ⟨hmem, hu⟩ := Table.find_some hf
        exact ⟨p, hmem, beq_iff_eq.1 hu, ho⟩
      · cases h
  | admin => exact requireAdmin_iff.1 h
  | roomMember =>
    simp only [Guard.check] at h
    split at h
    · cases h
    · rename_i role hok
      obtain ⟨m, hm, -⟩ := Rooms.canActivate_ok hok
      obtain ⟨hin, hr, hu, hl⟩ := Rooms.crew_eq_some.1 hm
      exact List.mem_map.2 ⟨m, Table.mem_findMany.2 ⟨hin, by simp [hr, hl]⟩, hu⟩

/-- The guard lets the request pass. -/
def Request.Passes (d : Deps) (req : Request) (g : Guard) (s : Site) : Prop :=
  g.Holds d.adminIds s.hub.world.db (req.userId d) req.route.roomId

/-- What is asked up to some guard, in this order. -/
def Request.asked (d : Deps) (req : Request) (guards : List Guard) : List (Site → Prop) :=
  [req.Presents d, req.ActiveAccount d] ++ guards.map (req.Passes d)

/-- What is asked of a request before it is served. -/
def Request.checks (d : Deps) (req : Request) : List (Site → Prop) :=
  req.asked d (req.route.guards.getD [])

/-- The service is neither before the read of `RoomMemberGuard` nor where a refusal leads. -/
def beyondGuard : ServerPc → Bool
  | .inr ⟨.rooms, Rooms.Pc.guard⟩ | .inr ⟨.rooms, Rooms.Pc.done (.error _)⟩ => false
  | .inr ⟨.roomUpdates, Rooms.UpdatePc.guard⟩ => false
  | .inr ⟨.roomUpdates, Rooms.UpdatePc.after (.done (.error _))⟩ => false
  | _ => true

/-- The request is behind the last of its guards. -/
def Request.cleared (req : Request) : FrontPc → Bool
  | .server pc => !req.route.guardsItself || beyondGuard pc
  | .query _ => true
  | _ => false

theorem Request.guards_eq {req : Request} (h : req.route.guardsItself = false) :
    req.guards d = req.route.guards.getD [] := by
  simp [Request.guards, h]

/-- What is missing of the guards, if anything, is the one the service asks itself. -/
theorem Request.checks_eq {req : Request} (h : req.route.guardsItself = true) :
    req.checks d = req.asked d (req.guards d) ∨
      req.checks d = req.asked d (req.guards d) ++ [req.Passes d .roomMember] := by
  obtain ⟨bearer, route⟩ := req
  unfold Request.checks Request.guards
  dsimp only
  split
  · right
    cases route <;> first | rfl | cases h
  · exact .inl rfl

theorem cleared_of_called {req : Request} {pc : FrontPc} (hself : req.route.guardsItself = false)
    (h : pc.called = true) : req.cleared pc = true := by
  cases pc with
  | server => simp [Request.cleared, hself]
  | query => rfl
  | _ => cases h

theorem activeAccount_of_authenticate {req : Request} {s : Site}
    (h : authenticate s.hub.world.db (req.userId d) = none) : req.ActiveAccount d s := by
  unfold authenticate at h
  split at h
  · rename_i hu
    obtain ⟨u, hf, ha⟩ := (Option.any_eq_true _ _).1 hu
    obtain ⟨hmem, hid⟩ := Table.find_some hf
    exact ⟨u, hmem, beq_iff_eq.1 hid, beq_iff_eq.1 ha⟩
  · cases h

/-! ## The guard a service asks itself -/

section Service
variable {c : Choice} {w w' : World} {roomId userId : String}

/-- The read of `RoomMemberGuard` has been made: the request is in, or is refused. -/
def Asked (d : Deps) (w : World) (roomId userId : String) (pc : ServerPc) : Prop :=
  beyondGuard pc = true → Guard.roomMember.Holds d.adminIds w.db userId roomId

theorem asked_orFail {found : Except AppException MemberRole}
    (hfound : found = Rooms.canActivate w.db roomId userId) :
    Asked d w roomId userId (.inr ⟨.rooms, Rooms.orFail found .room⟩) := by
  intro hin
  refine Guard.holds_of_check ?_
  simp only [Guard.check, ← hfound]
  cases found with
  | error e => cases hin
  | ok role => rfl

theorem guard_of_rooms {call : Rooms.Call} {pc pc' : Rooms.Pc}
    (hguard : Rooms.step d.json c call w Rooms.Pc.guard =
      some (w, Rooms.orFail (Rooms.canActivate w.db roomId userId) .room))
    (hs : (Service.rooms.machine d.cfg d.json).step c call w pc = some (w', pc'))
    (hbefore : beyondGuard (.inr ⟨.rooms, pc⟩) = false) :
    w' = w ∧ Asked d w roomId userId (.inr ⟨.rooms, pc'⟩) := by
  cases pc with
  | guard =>
    cases hguard.symm.trans hs
    exact ⟨rfl, asked_orFail rfl⟩
  | done r => cases call <;> cases hs
  | _ => cases hbefore

theorem guard_of_update {dto : Rooms.UpdateRoomDto} {pc pc' : Rooms.UpdatePc}
    (hs : Rooms.updateStep d.json c roomId userId dto w pc = some (w', pc'))
    (hbefore : beyondGuard (.inr ⟨.roomUpdates, pc⟩) = false) :
    w' = w ∧ Asked d w roomId userId (.inr ⟨.roomUpdates, pc'⟩) := by
  cases pc with
  | guard =>
    cases hs
    refine ⟨rfl, fun hin => Guard.holds_of_check ?_⟩
    simp only [Guard.check]
    split
    · rename_i e he
      rw [he] at hin
      cases hin
    · rfl
  | after pc =>
    cases pc with
    | done r => cases hs
    | _ => cases hbefore
  | _ => cases hbefore

end Service

/-- A request whose service asks `RoomMemberGuard` itself writes nothing before, and goes on only
if it is let in. -/
theorem guard_of_served {c : Choice} {req : Request} {s : Site} {h' : Hub} {pc pc' : ServerPc}
    (hself : req.route.guardsItself = true)
    (hs : (back d).step c ((FrontCall.http req).call d) s.hub pc = some (h', pc'))
    (hbefore : beyondGuard pc = false) :
    h'.world.db = s.hub.world.db ∧ (beyondGuard pc' = true → req.Passes d .roomMember s) := by
  obtain ⟨bearer, route⟩ := req
  obtain ⟨h₁, hacts, rfl⟩ := server_step hs
  rw [world_deliver]
  cases route <;> cases hself
  case updateRoom roomId dto =>
    cases hacts with
    | service hservice =>
      obtain ⟨rfl, hin⟩ := guard_of_update hservice hbefore
      exact ⟨rfl, hin⟩
  all_goals
    cases hacts with
    | service hservice =>
      obtain ⟨rfl, hin⟩ := guard_of_rooms rfl hservice hbefore
      exact ⟨rfl, hin⟩

/-! ## A request under way -/

section Runs
variable {ι : Type} [DecidableEq ι] (d) (D : Discipline Site FrontCall FrontPc)
  (calls : ι → FrontCall) (P : Pool Site FrontPc ι)

/-- What a request that is at `pc` has met. -/
def Underway (req : Request) (R : Pool Site FrontPc ι) : FrontPc → Prop
  | .account => InTurn (front d) D calls P [req.Presents d] R
  | .guards todo => ∃ passed, req.guards d = passed ++ todo ∧
      InTurn (front d) D calls P (req.asked d passed) R
  | .server pc => InTurn (front d) D calls P (req.asked d (req.guards d)) R ∧
      (req.cleared (.server pc) = true → InTurn (front d) D calls P (req.checks d) R)
  | .query _ => InTurn (front d) D calls P (req.asked d (req.guards d)) R ∧
      InTurn (front d) D calls P (req.checks d) R
  | _ => True

variable {d D calls P} {req : Request} {R R' : Pool Site FrontPc ι}

theorem Underway.later {pc : FrontPc} (h : Underway d D calls P req R pc)
    (hrun : Run (front d) D calls R R') : Underway d D calls P req R' pc := by
  cases pc with
  | account => exact h.trans hrun
  | server => exact ⟨h.1.trans hrun, fun hclear => (h.2 hclear).trans hrun⟩
  | query => exact ⟨h.1.trans hrun, h.2.trans hrun⟩
  | guards todo =>
    obtain ⟨passed, hpassed, h⟩ := h
    exact ⟨passed, hpassed, h.trans hrun⟩
  | _ => trivial

theorem guardsItself_of_query {q : Query} (hq : req.handler d = .query q) :
    req.route.guardsItself = false := by
  obtain ⟨bearer, route⟩ := req
  cases route <;> first | rfl | cases hq

theorem not_cleared_enter {s : Service} {call : s.Call} (hs : req.handler d = .serve s call)
    (hself : req.route.guardsItself = true) :
    beyondGuard ((back d).start (.inr ⟨s, call⟩)) = false := by
  obtain ⟨bearer, route⟩ := req
  cases route <;> cases hself
  all_goals
    cases hs
    rfl

/-- Past the guards. -/
theorem underway_passed (h : InTurn (front d) D calls P (req.asked d (req.guards d)) R) :
    Underway d D calls P req R (passed d req) := by
  unfold passed enter
  split
  · trivial
  · split
    · rename_i s call hs
      refine ⟨h, fun hclear => ?_⟩
      cases hself : req.route.guardsItself with
      | false => rwa [Request.checks, ← Request.guards_eq hself]
      | true =>
        rw [Request.cleared, hself, not_cleared_enter hs hself] at hclear
        cases hclear
    · rename_i q hq
      exact ⟨h, by rwa [Request.checks, ← Request.guards_eq (guardsItself_of_query hq)]⟩
    · trivial

/-- On to the next guard. -/
theorem underway_proceed (passed todo : List Guard) (hpassed : req.guards d = passed ++ todo)
    (h : InTurn (front d) D calls P (req.asked d passed) R) :
    Underway d D calls P req R (proceed d req todo) := by
  cases todo with
  | nil =>
    rw [List.append_nil] at hpassed
    exact underway_passed (by rwa [hpassed])
  | cons g todo => exact ⟨passed, hpassed, h⟩

theorem underway_guardStep {c : FrontChoice} {pc pc' : FrontPc}
    (hguarded : req.route.guards.isSome = true)
    (hP : Run (front d) D calls P R) (hmove : Run (front d) D calls R R')
    (hs : guardStep d c req R.shared.hub.world pc = some pc')
    (h : Underway d D calls P req R pc) : Underway d D calls P req R' pc' := by
  unfold guardStep at hs
  split at hs
  · cases hs
    rw [if_pos hguarded]
    split <;> trivial
  · cases hs
    split
    · trivial
    · rename_i jwt hjwt
      obtain ⟨hjwt, hv⟩ := Option.filter_eq_some_iff.1 hjwt
      split
      · rename_i ht
        exact .snoc [] (.nil hP) ⟨jwt, hjwt, ht, hv⟩ hmove
      · trivial
  · cases hs
    split
    · trivial
    · rename_i hauth
      exact underway_proceed [] _ rfl
        (.snoc [req.Presents d] h (activeAccount_of_authenticate hauth) hmove)
  · cases hs
    obtain ⟨passed, hpassed, h⟩ := h
    split
    · trivial
    · rename_i g todo _ hg
      refine underway_proceed (passed ++ [g]) todo (by simpa using hpassed) ?_
      rw [Request.asked, List.map_append, ← List.append_assoc]
      exact .snoc _ h (Guard.holds_of_check hg) hmove
  · cases hs

/-- A served request meets the last of its guards on the way, if it has not before. -/
theorem underway_served {c : Choice} {h' : Hub} {pc pc' : ServerPc}
    (hmove : Run (front d) D calls R R')
    (hs : (back d).step c ((FrontCall.http req).call d) R.shared.hub pc = some (h', pc'))
    (h : Underway d D calls P req R (.server pc)) : Underway d D calls P req R' (.server pc') := by
  obtain ⟨hasked, hchecks⟩ := h
  refine ⟨hasked.trans hmove, fun hclear => ?_⟩
  by_cases hbefore : req.cleared (.server pc) = true
  · exact (hchecks hbefore).trans hmove
  · simp only [Request.cleared, Bool.or_eq_true, not_or, Bool.not_eq_true', Bool.not_eq_false,
      Bool.not_eq_true] at hbefore hclear
    obtain ⟨hself, hbefore⟩ := hbefore
    have hin := hclear.resolve_left (by rw [hself]; exact Bool.noConfusion)
    have hpasses := (guard_of_served hself hs hbefore).2 hin
    rcases Request.checks_eq (d := d) hself with heq | heq <;> rw [heq]
    · exact hasked.trans hmove
    · exact .snoc _ hasked hpasses hmove

/-- Whatever a request of a guarded route has come to, it has met what lies before. -/
theorem underway_run {site : Site} {Q : Pool Site FrontPc ι} {i : ι}
    (hcall : calls i = .http req) (hguarded : req.route.guards.isSome = true)
    (hrun : Run (front d) D calls ((front d).initial calls site) Q) :
    Underway d D calls ((front d).initial calls site) req Q (Q.pcs i) := by
  refine (hrun.invariant (fun R => Run (front d) D calls ((front d).initial calls site) R ∧
    Underway d D calls ((front d).initial calls site) req R (R.pcs i)) ⟨.refl, ?_⟩ ?_ ?_).2
  · simp only [Machine.initial, hcall]
    trivial
  · intro R j c s' l' hr hI ha hs
    have hmove := Run.refl.move ha hs
    refine ⟨hr.move ha hs, ?_⟩
    by_cases hj : i = j
    · subst hj
      simp only [Function.update_self]
      rw [hcall] at hs
      have hin := hI.2
      generalize R.pcs i = pc at hs hin
      cases acts_of_front hs with
      | served hserved => exact underway_served hmove hserved hin
      | queried => exact ⟨hin.1.trans hmove, hin.2.trans hmove⟩
      | guarded hguard => exact underway_guardStep hguarded hr hmove hguard hin
    · simpa only [Function.update_of_ne hj] using hI.2.later hmove
  · intro R e hI
    exact ⟨hI.1.env e, hI.2.later (Run.refl.env e)⟩

/-- A request that is not at its start behind the front has been let through. -/
theorem called_of_behind {k : FrontCall} {pc : FrontPc}
    (h : behind d k pc ≠ (back d).start (k.call d)) : pc.called = true := by
  cases pc <;> first | rfl | exact absurd rfl h

/-- A request whose method has been called has met the guards asked before it. -/
theorem asked_run {site : Site} {Q : Pool Site FrontPc ι} {i : ι}
    (hcall : calls i = .http req) (hguarded : req.route.guards.isSome = true)
    (hrun : Run (front d) D calls ((front d).initial calls site) Q)
    (hcalled : (Q.pcs i).called = true) :
    InTurn (front d) D calls ((front d).initial calls site) (req.asked d (req.guards d)) Q := by
  have h := underway_run hcall hguarded hrun
  cases hpc : Q.pcs i <;> rw [hpc] at h hcalled <;> first | exact h.1 | cases hcalled

theorem cleared_run {site : Site} {Q : Pool Site FrontPc ι} {i : ι}
    (hcall : calls i = .http req) (hguarded : req.route.guards.isSome = true)
    (hrun : Run (front d) D calls ((front d).initial calls site) Q)
    (hclear : req.cleared (Q.pcs i) = true) :
    InTurn (front d) D calls ((front d).initial calls site) (req.checks d) Q := by
  have h := underway_run hcall hguarded hrun
  cases hpc : Q.pcs i <;> rw [hpc] at h hclear <;>
    first | exact h.2 hclear | exact h.2 | cases hclear

/-- **The front refines the services.** Whatever is in flight: behind the guards there is a run of
the services. A request that has begun there, or a query that has, has met on the way what the
guards before it ask for, in their order; and one that is behind the last of its guards has met all
of them. -/
theorem front_refines {site : Site} {Q : Pool Site FrontPc ι}
    (hrun : Run (front d) D calls ((front d).initial calls site) Q) :
    Run (back d) Discipline.free (FrontCall.call d ∘ calls)
      ((back d).initial (FrontCall.call d ∘ calls) site.hub) (Behind d calls Q) ∧
    ∀ i req, calls i = .http req → req.route.guards.isSome = true →
      ((Behind d calls Q).pcs i ≠ (back d).start ((calls i).call d) ∨
          (Q.pcs i).called = true →
        InTurn (front d) D calls ((front d).initial calls site) (req.asked d (req.guards d)) Q) ∧
      (req.cleared (Q.pcs i) = true →
        InTurn (front d) D calls ((front d).initial calls site) (req.checks d) Q) :=
  ⟨(fronts d).run_initial hrun, fun _ _ hcall hguarded =>
    ⟨fun hbegun => asked_run hcall hguarded hrun (hbegun.elim called_of_behind id),
      fun hclear => cleared_run hcall hguarded hrun hclear⟩⟩

end Runs

/-! ### An admin invites somebody -/

/-- `a` is an admin; a token reads as the name of its user. -/
def depsAB : Deps where
  adminIds := ["a"]
  decode u := some (tokenAccess u)

/-- Both have been through the onboarding. -/
def siteAB : Site where
  hub := { hubTokens with world := { hubTokens.world with
    db.profiles := ⟨[{ userId := "a", nickname := "A", onboardedAt := some 0 },
                     { userId := "b", nickname := "B", onboardedAt := some 0 }], by decide⟩ } }

def invite : Request where
  bearer := some "a"
  route := .createWhitelist { kakaoId := some "k9" }

def plays {ι : Type} (i : ι) (n : Nat) (c : Choice := {}) :
    List (Move ι FrontChoice Realtime.Env) := List.replicate n (.step i { choice := c })

theorem front_refines_invite : ∃ Q : Pool Site FrontPc Unit,
    Q.shared.hub.world.db.whitelist.rows.any (·.kakaoId == some "k9") = true ∧
    Run (front depsAB) Discipline.free (fun _ => .http invite)
      ((front depsAB).initial (fun _ => .http invite) siteAB) Q ∧
    InTurn (front depsAB) Discipline.free (fun _ => .http invite)
      ((front depsAB).initial (fun _ => .http invite) siteAB) (invite.checks depsAB) Q := by
  have hexec : ((front depsAB).exec always (fun _ => .http invite)
      ((front depsAB).initial (fun _ => .http invite) siteAB) (plays () 6 { id := "w1" })).any
      (fun Q => Q.shared.hub.world.db.whitelist.rows.any (·.kakaoId == some "k9") &&
        invite.cleared (Q.pcs ())) = true := by decide
  obtain ⟨Q, hrun, hQ⟩ := Machine.exec_reaches_free hexec
  obtain ⟨hrow, hclear⟩ := Bool.and_eq_true_iff.1 hQ
  exact ⟨Q, hrow, hrun, ((front_refines hrun).2 () invite rfl rfl).2 hclear⟩

end Intaktok.Http
