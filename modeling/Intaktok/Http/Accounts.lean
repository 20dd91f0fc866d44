import Intaktok.Http.Footprints
import Intaktok.Admin.Standing
/-
# Accounts, seen from outside

The status of an account changes by a login of its person, who was on the whitelist and not
blocked, or by an admin who sets the status of the person's whitelist entry (`accounts_by_right`).
The id and the `kakaoId` of a user never change, so that what `me` tells about being an admin is
what `AdminGuard` goes by from then on (`admin_without_drift`).
-/

namespace Intaktok.Http

open Interleave Tables Realtime Admin

section Runs
variable {ι : Type} [DecidableEq ι] {d : Deps} {D : Discipline Site FrontCall FrontPc}
  {calls : ι → FrontCall} {site : Site} {P Q : Pool Site FrontPc ι} {i : ι}

/-! ## The columns that name a user -/

/-- No user has gone, nor changed his id or Kakao account. -/
def UsersStay (w w' : World) : Prop := ∀ p ∈ Auth.userKeys w, p ∈ Auth.userKeys w'

theorem UsersStay.of_users {w w' : World} (h : w'.db.users = w.db.users) : UsersStay w w' := by
  intro p hp
  rwa [Auth.userKeys, h]

theorem usersStay_of_run (hrun : Run (front d) D calls P Q) :
    UsersStay P.shared.hub.world Q.shared.hub.world := by
  refine hrun.relates (r := fun s s' => UsersStay s.hub.world s'.hub.world) (fun _ _ => id)
    ?_ ?_ ?_
  · intro s s' s'' h h' p hp
    exact h' p (h p hp)
  · intro c k s l s' l' hs
    rcases users_of_writes hs with hsame | ⟨_, _, _, -, -, hauth⟩ | ⟨_, _, _, _, -, -, hadmin⟩
    · exact .of_users hsame
    · exact fun p => (Auth.acts_of_step hauth).userKeys
    · intro p hp
      rwa [userKeys_of_update hadmin]
  · exact fun e s => .of_users (by rw [db_of_env])

/-! ## The status of an account -/

/-- By what right `i` changes the status of the account of `k` in the state `R`. -/
inductive AccountRight (d : Deps) (D : Discipline Site FrontCall FrontPc) (calls : ι → FrontCall)
    (P : Pool Site FrontPc ι) (k : String) (R : Pool Site FrontPc ι) (i : ι) :
    Option UserStatus → Prop
  /-- The person logs in, and was found on the whitelist. -/
  | login {req info} : calls i = .http req → req.route = .kakao info → info.kakaoId = k →
      Met (front d) D calls P (fun S => ∃ row ∈ S.shared.hub.world.db.whitelist.rows,
        row.kakaoId = some k ∧ row.status ≠ .BLOCKED) R →
      AccountRight d D calls P k R i (some .ACTIVE)
  /-- An admin sets the status of the entry of the person. -/
  | updated {req id dto status} : calls i = .http req → req.route = .updateWhitelist id dto →
      dto.Sets status → InTurn (front d) D calls P (req.checks d) R →
      Met (front d) D calls P (fun S => ∃ row ∈ S.shared.hub.world.db.whitelist.rows,
        row.id = id ∧ row.kakaoId = some k) R →
      AccountRight d D calls P k R i (some status)

/-- The routes that lead to a login, and to an update of the whitelist. -/
theorem route_of_login {req : Request} {info : Auth.KakaoUserInfo}
    (h : req.handler d = .serve .auth (.kakaoLogin info)) : req.route = .kakao info := by
  obtain ⟨bearer, route⟩ := req
  cases route <;> simp only [Request.handler, Route.handler] at h <;>
    first | (cases h; rfl) | cases h | (split at h <;> cases h)

theorem route_of_update {req : Request} {id : String} {dto : UpdateWhitelistDto}
    (h : req.handler d = .serve .admin (.update id dto)) : req.route = .updateWhitelist id dto := by
  obtain ⟨bearer, route⟩ := req
  cases route <;> simp only [Request.handler, Route.handler] at h <;>
    first | (cases h; rfl) | cases h | (split at h <;> cases h)

/-- The login `i` is looking the person up, and there is an entry of his that is not blocked. -/
def Lists (i : ι) (info : Auth.KakaoUserInfo) (S : Pool Site FrontPc ι) : Prop :=
  S.pcs i = .server (.inr ⟨.auth, Auth.Pc.whitelist⟩) ∧
    ∃ row ∈ S.shared.hub.world.db.whitelist.rows,
      row.kakaoId = some info.kakaoId ∧ row.status ≠ .BLOCKED

/-- A login that is about to enrol somebody has found him on the whitelist. -/
theorem login_listed {info : Auth.KakaoUserInfo} {row : Whitelist}
    (hrun : Run (front d) D calls ((front d).initial calls site) Q)
    (hcall : (calls i).call d = .inr ⟨.auth, .kakaoLogin info⟩)
    (hpc : Q.pcs i = .server (.inr ⟨.auth, .enroll row⟩)) :
    ∃ req, calls i = .http req ∧ req.route = .kakao info ∧
      Met (front d) D calls ((front d).initial calls site) (Lists i info) Q := by
  obtain ⟨req, hreq, hhandler⟩ := http_of_call hcall (by decide)
  have hlisted : ∀ {c w w' pc pc'}, Auth.step d.cfg c (.kakaoLogin info) w pc = some (w', pc') →
      pc' = .enroll row → pc = .enroll row ∨ pc = .whitelist ∧ row ∈ w.db.whitelist.rows ∧
        row.kakaoId = some info.kakaoId ∧ row.status ≠ .BLOCKED := by
    rintro c w w' pc _ hs rfl
    cases Auth.acts_of_step hs with
    | listed hf hne =>
      obtain ⟨hmem, hk⟩ := Table.find_some hf
      exact .inr ⟨rfl, hmem, beq_iff_eq.1 hk, hne⟩
  obtain ⟨R, h₁, ⟨_, hat, rfl, hfound⟩, h₂⟩ := served_passed (s := .auth) (p := (· = .enroll row))
    hrun hcall (fun h => by cases h) hlisted hpc rfl
  exact ⟨req, hreq, route_of_login hhandler, R, h₁, ⟨hat, row, hfound⟩, h₂⟩

theorem login_right {info : Auth.KakaoUserInfo} {row : Whitelist}
    (hrun : Run (front d) D calls ((front d).initial calls site) Q)
    (hcall : (calls i).call d = .inr ⟨.auth, .kakaoLogin info⟩)
    (hpc : Q.pcs i = .server (.inr ⟨.auth, .enroll row⟩)) :
    AccountRight d D calls ((front d).initial calls site) info.kakaoId Q i (some .ACTIVE) := by
  obtain ⟨req, hreq, hroute, S, h₁, ⟨-, hrow⟩, h₂⟩ := login_listed hrun hcall hpc
  exact .login hreq hroute rfl ⟨S, h₁, hrow, h₂⟩

theorem update_right {id k : String} {dto : UpdateWhitelistDto} {pc : Admin.Pc} {user : User}
    {status : UserStatus} (hrun : Run (front d) D calls ((front d).initial calls site) Q)
    (hcall : (calls i).call d = .inr ⟨.admin, .update id dto⟩)
    (hpc : Q.pcs i = .server (.inr ⟨.admin, pc⟩)) (hw : writesStatus pc = some (user, status))
    (hk : (user.id, k) ∈ Auth.userKeys Q.shared.hub.world) :
    AccountRight d D calls ((front d).initial calls site) k Q i (some status) := by
  obtain ⟨req, hreq, hhandler⟩ := http_of_call hcall (by decide)
  have hroute := route_of_update hhandler
  have hclear := cleared_run hreq (by rw [hroute]; rfl) hrun
    (cleared_of_called (by rw [hroute]; rfl) (by rw [hpc]; rfl))
  -- the user was found by the Kakao id of the entry, which the request had found by `id`
  obtain ⟨R, h₁, ⟨pc₁, hpc₁, updated, hseeks, hfound⟩, h₂⟩ := served_passed
    (p := fun pc => writesStatus pc = some (user, status))
    (φ := fun w pc => ∃ updated, seeksUser pc = some (updated, status) ∧
      w.db.users.find (some ·.kakaoId == updated.kakaoId) = some user)
    hrun hcall (fun h => by cases h)
    (fun hs hp => .inr (writesStatus_of_step (Admin.acts_of_step hs) hp)) hpc hw
  obtain ⟨S, h₃, ⟨_, -, hsets, hrow⟩, h₄⟩ := served_passed
    (p := fun pc => seeksUser pc = some (updated, status))
    (φ := fun w _ => dto.Sets status ∧ ∃ row ∈ w.db.whitelist.rows, row.id = id ∧
      row.kakaoId = updated.kakaoId)
    h₁ hcall (fun h => by cases h)
    (fun hs hp => .inr (seeksUser_of_step (Admin.acts_of_step hs) hp)) hpc₁ hseeks
  obtain ⟨hmem, hkakao⟩ := Table.find_some hfound
  have hkeys := usersStay_of_run h₂ _ (Auth.mem_userKeys.2 ⟨user, hmem, rfl, rfl⟩)
  obtain ⟨u, hu, hid, rfl⟩ := Auth.mem_userKeys.1 hk
  obtain ⟨u', hu', hid', hk'⟩ := Auth.mem_userKeys.1 hkeys
  obtain rfl := users_eq_of_id hu hu' (hid.trans hid'.symm)
  obtain ⟨row, hrow, hrid, hrk⟩ := hrow
  refine .updated hreq hroute hsets hclear ⟨S, h₃, ⟨row, hrow, hrid, ?_⟩, h₄.trans h₂⟩
  rw [hrk, hk']
  exact (beq_iff_eq.1 hkakao).symm

/-- **Accounts by right.** Whatever is in flight: where the status of an account has changed, the
person has logged in, from the whitelist, or an admin has set the status of his entry. -/
theorem accounts_by_right (hrun : Run (front d) D calls ((front d).initial calls site) Q)
    {k : String} {v : Option UserStatus} (hbefore : standing site.hub.world.db k ≠ v)
    (hv : standing Q.shared.hub.world.db k = v) :
    Brought (front d) D calls ((front d).initial calls site)
      (fun s => standing s.hub.world.db k = v)
      (fun R i => AccountRight d D calls ((front d).initial calls site) k R i v) Q := by
  refine hrun.brought hbefore ?_ ?_ hv
  · intro R i c s' l' hr _ hs hno hyes
    rcases users_of_writes hs with hsame | ⟨call, pc, pc', hcall, hpc, hauth⟩ |
      ⟨id, dto, pc, pc', hcall, hpc, hadmin⟩
    · exact absurd ((standing_of_users hsame k).symm.trans hyes) hno
    · rcases standing_of_login (Auth.acts_of_step hauth) k with hsame |
        ⟨info, row, rfl, rfl, rfl, hactive⟩
      · exact absurd (hsame.symm.trans hyes) hno
      · exact hyes ▸ hactive ▸ login_right hr hcall hpc
    · rcases standing_of_update hadmin k with hsame | ⟨user, status, hw, hk, hstatus⟩
      · exact absurd (hsame.symm.trans hyes) hno
      · exact hyes ▸ hstatus ▸ update_right hr hcall hpc hw hk
  · intro e s hyes
    rwa [db_of_env] at hyes

/-! ## What `me` tells -/

/-- What is behind an answer of `me`: a user who is there. -/
def TellsOf (d : Deps) (userId : String) (w : World) : QueryPc → Prop
  | .meAvatar user _ _ => user.id = userId ∧ (userId, user.kakaoId) ∈ Auth.userKeys w
  | .done (.ok (.me me)) => me.id = userId ∧ ∃ kakaoId, (userId, kakaoId) ∈ Auth.userKeys w ∧
      me.isAdmin = isAdminIdentity d.adminIds userId (some kakaoId)
  | _ => True

theorem TellsOf.later {userId : String} {w w' : World} {pc : QueryPc} (h : TellsOf d userId w pc)
    (hstay : UsersStay w w') : TellsOf d userId w' pc := by
  unfold TellsOf at h ⊢
  split
  · exact ⟨h.1, hstay _ h.2⟩
  · obtain ⟨hid, kakaoId, hmem, hadmin⟩ := h
    exact ⟨hid, kakaoId, hstay _ hmem, hadmin⟩
  · trivial

theorem tellsOf_meStep {userId : String} {w : World} {pc pc' : QueryPc}
    (hs : meStep d.cfg d.adminIds userId w.db pc = some pc') (h : TellsOf d userId w pc) :
    TellsOf d userId w pc' := by
  unfold meStep at hs
  split at hs
  · cases hs
    split
    · trivial
    · rename_i user hf
      obtain ⟨hmem, hid⟩ := Table.find_some hf
      obtain rfl : user.id = userId := beq_iff_eq.1 hid
      have hkey := Auth.mem_userKeys.2 ⟨user, hmem, rfl, rfl⟩
      dsimp only
      split
      · exact ⟨rfl, hkey⟩
      · exact ⟨rfl, _, hkey, rfl⟩
  · cases hs
    obtain ⟨rfl, hkey⟩ := h
    exact ⟨rfl, _, hkey, rfl⟩
  · cases hs

theorem tellsOf_run {req : Request} (hcall : calls i = .http req) (hroute : req.route = .me)
    (hrun : Run (front d) D calls ((front d).initial calls site) Q) {pc : QueryPc}
    (hpc : Q.pcs i = .query pc) : TellsOf d (req.userId d) Q.shared.hub.world pc := by
  have hhandler : req.handler d = .query (.me (req.userId d)) := by
    rw [Request.handler, hroute, Route.handler]
  refine hrun.invariant (fun R => ∀ pc, R.pcs i = .query pc →
    TellsOf d (req.userId d) R.shared.hub.world pc) ?_ ?_ ?_ pc hpc
  · intro pc hpc
    simp only [Machine.initial, hcall] at hpc
    cases hpc
  · intro R j c s' l' _ hI ha hs pc hpc
    have hstay : UsersStay R.shared.hub.world s'.hub.world := usersStay_of_run (Run.refl.move ha hs)
    by_cases hj : i = j
    · subst hj
      simp only [Function.update_self] at hpc
      subst hpc
      rw [hcall] at hs
      generalize R.pcs i = l at hs hI
      cases acts_of_front hs with
      | queried hh hq =>
        rw [hhandler] at hh
        cases hh
        exact tellsOf_meStep hq (hI _ rfl)
      | guarded hguard =>
        obtain rfl := query_of_guardStep hhandler hguard
        trivial
    · exact (hI pc (by simpa only [Function.update_of_ne hj] using hpc)).later hstay
  · intro R e hI pc hpc
    have hmove : Run (front d) D calls R { R with shared := (front d).env e R.shared } :=
      .env e .refl
    exact (hI pc hpc).later (usersStay_of_run hmove)

/-- **No drift.** Whatever is in flight: what `me` has told a user about being an admin is, from
then on, what `AdminGuard` goes by. -/
theorem admin_without_drift {R : Pool Site FrontPc ι} {req : Request} {me : Me}
    (hrun : Run (front d) D calls ((front d).initial calls site) R)
    (hlater : Run (front d) D calls R Q)
    (hcall : calls i = .http req) (hroute : req.route = .me)
    (hanswer : (R.pcs i).answer = some (.me me)) :
    me.id = req.userId d ∧
      (requireAdmin d.adminIds Q.shared.hub.world.db me.id = none ↔ me.isAdmin = true) := by
  obtain ⟨hid, kakaoId, hmem, hadmin⟩ := tellsOf_run hcall hroute hrun
    (FrontPc.answer_eq_some.1 hanswer)
  obtain ⟨user, hin, huser, rfl⟩ := Auth.mem_userKeys.1 (usersStay_of_run hlater _ hmem)
  refine ⟨hid, ?_⟩
  rw [requireAdmin_iff, hadmin, isAdminIdentity_iff, hid, IsAdmin]
  refine and_congr_right fun _ => or_congr_right ⟨?_, ?_⟩
  · rintro ⟨other, hother, hoid, hk⟩
    obtain rfl := users_eq_of_id hother hin (hoid.trans huser.symm)
    exact ⟨_, rfl, hk⟩
  · rintro ⟨_, hsome, hk⟩
    cases hsome
    exact ⟨user, hin, huser, hk⟩

end Runs

/-! ### An admin blocks `b` -/

def siteListed : Site where
  hub := { hubTokens with world := { hubTokens.world with
    db.whitelist := ⟨[{ id := "wb", kakaoId := some "kb", status := .ACTIVE }], by decide⟩ } }

def block : Request where
  bearer := some "a"
  route := .updateWhitelist "wb" { status := some (some .BLOCKED) }

theorem accounts_by_right_block : ∃ Q : Pool Site FrontPc Unit,
    standing Q.shared.hub.world.db "kb" = some .SUSPENDED ∧
    Brought (front depsAB) Discipline.free (fun _ => .http block)
      ((front depsAB).initial (fun _ => .http block) siteListed)
      (fun s => standing s.hub.world.db "kb" = some .SUSPENDED)
      (fun R i => AccountRight depsAB Discipline.free (fun _ => .http block)
        ((front depsAB).initial (fun _ => .http block) siteListed) "kb" R i (some .SUSPENDED))
      Q := by
  have hexec : ((front depsAB).exec always (fun _ => .http block)
      ((front depsAB).initial (fun _ => .http block) siteListed) (plays () 8)).any
      (fun Q => standing Q.shared.hub.world.db "kb" == some .SUSPENDED) = true := by decide
  obtain ⟨Q, hrun, hQ⟩ := Machine.exec_reaches_free hexec
  have hv := beq_iff_eq.1 hQ
  exact ⟨Q, hv, accounts_by_right hrun (by decide) hv⟩

/-! ### What `a` is told -/

def Answer.isMe : Answer → Bool
  | .me _ => true
  | _ => false

def whoAmI : Request where
  bearer := some "a"
  route := .me

theorem admin_without_drift_a : ∃ (Q : Pool Site FrontPc Unit) (me : Me),
    (Q.pcs ()).answer = some (.me me) ∧ me.id = "a" ∧
      (requireAdmin ["a"] Q.shared.hub.world.db me.id = none ↔ me.isAdmin = true) := by
  have hexec : ((front depsAB).exec always (fun _ => .http whoAmI)
      ((front depsAB).initial (fun _ => .http whoAmI) siteAB) (plays () 4)).any
      (fun Q => (Q.pcs ()).answer.any Answer.isMe) = true := by decide
  obtain ⟨Q, hrun, hQ⟩ := Machine.exec_reaches_free hexec
  obtain ⟨answer, hanswer, hme⟩ := (Option.any_eq_true _ _).1 hQ
  cases answer with
  | me me => exact ⟨Q, me, hanswer, admin_without_drift hrun .refl rfl rfl hanswer⟩
  | _ => cases hme

end Intaktok.Http
