import Intaktok.Http.Accounts
import Intaktok.Http.Senders
/-
# Where tokens come from

Only `AuthService` signs, and it signs for whom a login has enrolled, or for whom a refresh token
names that it has signed itself (`auth.service.ts:142`). Back along the refreshes there is a login
that has enrolled him, so whoever holds a token has logged in, and was on the whitelist when the
login looked. What requests and sockets present are such tokens (`known_by_login`).
-/

namespace Intaktok

open Interleave Tables

/-! ## Whom a call signs for -/

theorem World.mem_issued_of_verifyAsync {w : World} {token : Jwt} {secret : String}
    (h : w.verifyAsync token secret = true) : token ∈ w.issued := by
  rw [World.verifyAsync, Bool.and_eq_true, Bool.and_eq_true] at h
  exact List.contains_iff_mem.1 h.1.1

namespace Auth

/-- For whom a call is going to sign. -/
def signsFor : Call → Pc → Option String
  | _, .profile u => some u.id
  | _, .sign userId _ => some userId
  | .refresh token, .existsKey | .refresh token, .user | .refresh token, .del => some token.sub
  | _, _ => none

theorem signsFor_start (call : Call) : signsFor call (start call) = none := by
  cases call <;> rfl

/-- He has just been enrolled, or is named by a token that has been signed. -/
theorem Acts.signsFor {cfg : AppConfig} {c : Choice} {w w' : World} {call : Call} {pc pc' : Pc}
    {u : String} (h : Acts cfg c w call pc w' pc') (hu : signsFor call pc' = some u) :
    Auth.signsFor call pc = some u ∨ (∃ t ∈ w.issued, t.sub = u) ∨
    ∃ info row user, call = .kakaoLogin info ∧ pc = .enroll row ∧ pc' = .profile user ∧
      user.id = u ∧ (u, info.kakaoId) ∈ Auth.userKeys w' := by
  cases h with
  | @enroll info row w' user he =>
    rcases enrolled_of_enroll he with ⟨user', huser, hen⟩ | ⟨⟨_, he⟩, -⟩
    · cases huser
      cases hu
      exact .inr (.inr ⟨info, row, user, rfl, rfl, rfl, rfl, hen.mine⟩)
    · cases he
  | @verified token hv ht =>
    cases hu
    exact .inr (.inl ⟨token, World.mem_issued_of_verifyAsync hv, rfl⟩)
  | profile | known | active | del => exact .inl hu
  | _ => cases hu

/-- A token is signed for the user its call signs for. -/
theorem Acts.signs {cfg : AppConfig} {c : Choice} {w w' : World} {call : Call} {pc pc' : Pc}
    {t : Jwt} (h : Acts cfg c w call pc w' pc') (ht : t ∈ w'.issued) :
    t ∈ w.issued ∨ Auth.signsFor call pc = some t.sub := by
  cases h with
  | sign =>
    rcases List.mem_append.1 ht with ht | ht
    · exact .inl ht
    · rcases List.mem_pair.1 ht with rfl | rfl <;> exact .inr (by cases call <;> rfl)
  | record hu => obtain ⟨t, rfl⟩ := upsertAccessRequest_world hu; exact .inl ht
  | enroll he | enrollFailed he => obtain ⟨t, t', rfl⟩ := enroll_world he; exact .inl ht
  | sweep hsw | swept hsw => rcases sweepStep_world hsw with rfl | ⟨k, rfl⟩ <;> exact .inl ht
  | _ => exact .inl ht

end Auth

/-! ## Nobody else signs -/

theorem Messages.issued_of_create {json : Messages.Json} {c : Choice}
    {p : Messages.CreateMessageParams} {w w' : World} {pc pc' : Messages.CreatePc}
    (h : Messages.CreateActs json c p w pc w' pc') : w'.issued = w.issued := by
  cases h.effect <;> rfl

theorem Messages.issued_of_read {r u : Messages.WhereString} {n : Messages.JsNumber}
    {w w' : World} {pc pc' : Messages.ReadPc}
    (h : Messages.readStep r u n w pc = some (w', pc')) : w'.issued = w.issued := by
  cases pc <;> simp only [readStep] at h
  case update =>
    split at h
    · cases h; rfl
    · split at h
      · cases h; rfl
      · split at h <;> cases h <;> rfl
  case members l => cases h; rfl
  case done r => cases h

theorem Messages.issued_of_delete {cfg : AppConfig} {roomId messageId requesterId : String}
    {w w' : World} {pc pc' : Messages.DeletePc}
    (h : Messages.deleteStep cfg roomId messageId requesterId w pc = some (w', pc')) :
    w'.issued = w.issued := by
  cases pc <;> simp only [deleteStep] at h
  case find => cases h; rfl
  case update deletedAt => split at h <;> cases h <;> rfl
  case members => cases h; rfl
  case done r => cases h

theorem Rooms.issued_of_tail {json : Messages.Json} {c : Choice} {r : String} {task : Rooms.Task}
    {todo : List Rooms.Task} {result : Option RoomView} {w w' : World} {pc : Rooms.TailPc}
    {pc' : Rooms.Pc} (h : Rooms.TailActs json c r task todo result w pc w' pc') :
    w'.issued = w.issued := by
  cases h with
  | created _ hc => exact Messages.issued_of_create hc
  | _ => rfl

theorem Rooms.issued_of_step {json : Messages.Json} {c : Choice} {call : Rooms.Call} {w w' : World}
    {pc pc' : Rooms.Pc} (h : Rooms.step json c call w pc = some (w', pc')) :
    w'.issued = w.issued := by
  unfold Rooms.step at h
  split at h
  · exact Rooms.issued_of_tail (Rooms.acts_of_tailStep h)
  · have hacts : Rooms.Acts c call w pc w' pc' := by
      cases call with
      | createRoom creatorId dto => exact Rooms.acts_of_createRoom h
      | addMembers r a userIds => exact Rooms.acts_of_addMembers h
      | updateMemberRole r a t role => exact Rooms.acts_of_updateMemberRole h
      | removeMember r a t => exact Rooms.acts_of_removeMember h
    obtain ⟨rooms, roomMembers, rfl⟩ := hacts.db
    rfl

namespace Realtime

theorem issued_of_service {cfg : AppConfig} {json : Messages.Json} {c : Choice} {s : Service}
    {call : s.Call} {w w' : World} {pc pc' : s.Pc}
    (h : (s.machine cfg json).step c call w pc = some (w', pc')) (hs : s ≠ .auth) :
    w'.issued = w.issued := by
  cases s with
  | auth => exact absurd rfl hs
  | admin =>
    obtain ⟨id, dto⟩ := call
    cases Admin.acts_of_step h with
    | sweep hsw | swept hsw => rcases sweepStep_world hsw with rfl | ⟨key, rfl⟩ <;> rfl
    | _ => rfl
  | whitelist => obtain ⟨_, _, rfl⟩ := Admin.entryStep_db h; rfl
  | messages =>
    cases Messages.acts_of_step h with
    | create hcreate => exact Messages.issued_of_create (Messages.acts_of_createStep hcreate)
    | read hread => exact Messages.issued_of_read hread
    | delete hdelete => exact Messages.issued_of_delete hdelete
  | rooms => exact Rooms.issued_of_step h
  | roomUpdates =>
    obtain ⟨r, a, dto⟩ := call
    cases Rooms.acts_of_updateRoom h with
    | after htail => exact Rooms.issued_of_tail (Rooms.acts_of_tailStep htail)
    | _ => rfl
  | push => obtain ⟨_, _, rfl⟩ := Push.step_db h; rfl
  | media => obtain ⟨_, _, rfl⟩ := MediaService.step_db h; rfl
  | profile => obtain ⟨_, rfl⟩ := ProfileService.step_db h; rfl

theorem issued_of_connect {cfg : AppConfig} {decode : String → Option Jwt} {id : String}
    {hs : Handshake} {h h' : Hub} {pc pc' : ConnectPc}
    (hstep : connectStep cfg decode id hs h pc = some (h', pc')) :
    h'.world.issued = h.world.issued := by
  cases pc <;> simp only [connectStep] at hstep
  case verify =>
    split at hstep
    · cases hstep; rfl
    · split at hstep
      · cases hstep; rfl
      · split at hstep <;> cases hstep <;> rfl
  case user sub => split at hstep <;> cases hstep <;> rfl
  case memberships u => split at hstep <;> cases hstep <;> rfl
  case presence u pc =>
    obtain ⟨⟨world, pc₁⟩, hp, he⟩ := Option.map_eq_some_iff.1 hstep
    simp only at he
    obtain ⟨redis, rfl⟩ := Presence.addStep_world hp
    split at he <;> cases he <;> rfl
  case myRooms u => split at hstep <;> cases hstep <;> rfl
  case coMembers u roomIds =>
    cases hstep
    unfold emitToUsers
    split <;> rfl
  all_goals cases hstep <;> rfl

theorem issued_of_disconnect {id : String} {h h' : Hub} {pc pc' : DisconnectPc}
    (hs : disconnectStep id h pc = some (h', pc')) : h'.world.issued = h.world.issued := by
  cases pc <;> simp only [disconnectStep] at hs
  case presence userId pc =>
    obtain ⟨⟨w, pc₁⟩, hp, he⟩ := Option.map_eq_some_iff.1 hs
    cases he
    obtain ⟨redis, lastSeenAt, rfl⟩ := Presence.removeStep_world hp
    rfl
  case myRooms userId => split at hs <;> cases hs <;> rfl
  case coMembers userId roomIds =>
    cases hs
    unfold emitToUsers
    split <;> rfl
  all_goals cases hs <;> rfl

theorem issued_of_event {cfg : AppConfig} {json : Messages.Json} {c : Choice} {call : EventCall}
    {h h' : Hub} {pc pc' : EventPc} (hs : eventStep cfg json c call h pc = some (h', pc')) :
    h'.world.issued = h.world.issued := by
  cases acts_of_event hs with
  | send hsend =>
    cases hsend with
    | create hcreate => exact Messages.issued_of_create (Messages.acts_of_createStep hcreate)
    | _ => rfl
  | delete hdelete =>
    cases hdelete with
    | delete _ hdelete => exact Messages.issued_of_delete hdelete
    | _ => rfl
  | @join id roomId pc _ _ hjoin => cases pc <;> cases hjoin <;> rfl
  | leave hleave => exact issued_of_disconnect hleave

end Realtime

namespace Http

open Realtime

variable {d : Deps}

theorem issued_of_step {c : FrontChoice} {k : FrontCall} {s s' : Site} {l l' : FrontPc}
    (hs : (front d).step c k s l = some (s', l')) :
    s'.hub.world.issued = s.hub.world.issued ∨
    ∃ call pc pc', k.call d = .inr ⟨.auth, call⟩ ∧ l = .server (.inr ⟨.auth, pc⟩) ∧
      Auth.step d.cfg c.choice call s.hub.world pc = some (s'.hub.world, pc') := by
  cases acts_of_front hs with
  | typed ht => exact .inl (congrArg (·.world.issued) (hub_typingStep ht))
  | queried | guarded => exact .inl rfl
  | @served _ pc h' pc' hserved =>
    obtain ⟨h₁, hacts, rfl⟩ := server_step hserved
    dsimp only
    rw [world_deliver]
    generalize hcall : k.call d = call at hacts
    cases hacts with
    | socket hsocket =>
      cases acts_of_socket hsocket with
      | connect hconnect => exact .inl (issued_of_connect hconnect)
      | read hread =>
        rcases onReadStep_cases hread with rfl | ⟨_, _, _, _, w, _, hmark, rfl⟩
        · exact .inl rfl
        · exact .inl (Messages.issued_of_read hmark)
    | event hevent => exact .inl (issued_of_event hevent)
    | @service service call pc₁ pc₁' w hservice =>
      by_cases hauth : service = .auth
      · subst hauth
        exact .inr ⟨call, pc₁, pc₁', rfl, rfl, hservice⟩
      · exact .inl (issued_of_service hservice hauth)

/-! ## Runs -/

section Runs
variable {ι : Type} [DecidableEq ι] (d) (D : Discipline Site FrontCall FrontPc)
  (calls : ι → FrontCall) (P : Pool Site FrontPc ι)

/-- The login `i` has just enrolled the user, whom it had found on the whitelist. -/
structure Enrolls (i : ι) (info : Auth.KakaoUserInfo) (u : String) (T : Pool Site FrontPc ι) :
    Prop where
  enrolled : ∃ user : User, user.id = u ∧ T.pcs i = .server (.inr ⟨.auth, Auth.Pc.profile user⟩)
  listed : Met (front d) D calls P (Lists i info) T

/-- A login has enrolled the user, whose Kakao account it has named; or he has held a token all
along. -/
inductive LoggedIn (R : Pool Site FrontPc ι) (u : String) : Prop
  | before {t} : t ∈ P.shared.hub.world.issued → t.sub = u → LoggedIn R u
  | login {i : ι} {req info} : calls i = .http req → req.route = .kakao info →
      (u, info.kakaoId) ∈ Auth.userKeys R.shared.hub.world →
      Met (front d) D calls P (Enrolls d D calls P i info u) R → LoggedIn R u

variable {d D calls P} {site : Site} {Q R : Pool Site FrontPc ι} {i : ι} {u : String}

theorem LoggedIn.later (h : LoggedIn d D calls ((front d).initial calls site) R u)
    (hrun : Run (front d) D calls R Q) :
    LoggedIn d D calls ((front d).initial calls site) Q u := by
  cases h with
  | before ht hu => exact .before ht hu
  | login hcall hroute hkey hmet =>
    exact .login hcall hroute (usersStay_of_run hrun _ hkey) (hmet.trans hrun)

/-- Who has a token has logged in, and so has he for whom a call is going to sign. -/
structure Rooted (d : Deps) (D : Discipline Site FrontCall FrontPc) (calls : ι → FrontCall)
    (P R : Pool Site FrontPc ι) : Prop where
  tokens : ∀ t ∈ R.shared.hub.world.issued, LoggedIn d D calls P R t.sub
  calls : ∀ {i call pc u}, (calls i).call d = .inr ⟨.auth, call⟩ →
    R.pcs i = .server (.inr ⟨.auth, pc⟩) → Auth.signsFor call pc = some u →
    LoggedIn d D calls P R u

/-- An action of a login or a refresh goes on for somebody who has logged in. -/
theorem Rooted.call {c : Choice} {call : Auth.Call} {pc pc' : Auth.Pc}
    (h : Rooted d D calls ((front d).initial calls site) R)
    (hrun : Run (front d) D calls ((front d).initial calls site) R)
    (hlater : Run (front d) D calls R Q)
    (hcall : (calls i).call d = .inr ⟨.auth, call⟩) (hpc : R.pcs i = .server (.inr ⟨.auth, pc⟩))
    (hs : Auth.step d.cfg c call R.shared.hub.world pc = some (Q.shared.hub.world, pc'))
    (hpc' : Q.pcs i = .server (.inr ⟨.auth, pc'⟩))
    (hu : Auth.signsFor call pc' = some u) :
    LoggedIn d D calls ((front d).initial calls site) Q u := by
  rcases (Auth.acts_of_step hs).signsFor hu with hbefore | ⟨t, ht, rfl⟩ |
    ⟨info, row, user, rfl, rfl, rfl, hid, hkey⟩
  · exact (h.calls hcall hpc hbefore).later hlater
  · exact (h.tokens t ht).later hlater
  · obtain ⟨req, hreq, hroute, hmet⟩ := login_listed hrun hcall hpc
    have henrolls : Enrolls d D calls ((front d).initial calls site) i info u Q :=
      ⟨⟨user, hid, hpc'⟩, hmet.trans hlater⟩
    exact .login hreq hroute hkey ((hrun.trans hlater).met henrolls)

theorem rooted_run (hrun : Run (front d) D calls ((front d).initial calls site) Q) :
    Rooted d D calls ((front d).initial calls site) Q := by
  refine hrun.invariant (Rooted d D calls ((front d).initial calls site)) ?_ ?_ ?_
  · refine ⟨fun t ht => .before ht rfl, fun {i call pc u} hcall hpc hu => ?_⟩
    have hstart := (fronts d).start (calls i)
    change (front d).start (calls i) = .server (.inr ⟨.auth, pc⟩) at hpc
    rw [hpc, hcall] at hstart
    cases hstart
    cases (Auth.signsFor_start call).symm.trans hu
  · intro R j c s' l' hr hI ha hs
    have hmove := Run.refl.move ha hs
    refine ⟨fun t ht => ?_, fun {i call pc u} hcall hpc hu => ?_⟩
    · rcases issued_of_step hs with hsame | ⟨call, pc, pc', hcall, hpc, hauth⟩
      · exact (hI.tokens t (hsame ▸ ht)).later hmove
      · rcases (Auth.acts_of_step hauth).signs ht with hold | hsigns
        · exact (hI.tokens t hold).later hmove
        · exact (hI.calls hcall hpc hsigns).later hmove
    · by_cases hj : i = j
      · subst hj
        have hat := hpc
        simp only [Function.update_self] at hpc
        subst hpc
        rcases service_of_step hcall hs with rfl | ⟨pc₀, hpc₀, hservice⟩
        · cases (Auth.signsFor_start call).symm.trans hu
        · exact hI.call hr hmove hcall hpc₀ hservice hat hu
      · exact (hI.calls hcall (by simpa only [Function.update_of_ne hj] using hpc) hu).later hmove
  · intro R e hI
    have hmove : Run (front d) D calls R { R with shared := (front d).env e R.shared } :=
      .env e .refl
    have hissued : ((front d).env e R.shared).hub.world.issued = R.shared.hub.world.issued := by
      obtain ⟨redis, now, he⟩ := world_env d.cfg e R.shared.hub
      exact congrArg (·.issued) he
    exact ⟨fun t ht => (hI.tokens t (hissued ▸ ht)).later hmove,
      fun hcall hpc hu => (hI.calls hcall hpc hu).later hmove⟩

/-- Who is known to the program: by a token, by a request that is served, or by a socket. -/
inductive Known (d : Deps) (calls : ι → FrontCall) (Q : Pool Site FrontPc ι) (u : String) : Prop
  | token {t} : t ∈ Q.shared.hub.world.issued → t.sub = u → Known d calls Q u
  | request {i req} : calls i = .http req → req.route.guards.isSome = true →
      (Q.pcs i).called = true → req.userId d = u → Known d calls Q u
  | socket {id} : (Q.shared.hub.sockets id).userId = some u → Known d calls Q u

/-- **Known by login.** Whatever is in flight, on a server to which nobody has been connected at
first: whom the program knows, by a token, a request or a socket, has been enrolled by a login that
had found him on the whitelist. -/
theorem known_by_login (hquiet : ∀ id, (site.hub.sockets id).userId = none)
    (hrun : Run (front d) D calls ((front d).initial calls site) Q) (hu : Known d calls Q u) :
    LoggedIn d D calls ((front d).initial calls site) Q u := by
  cases hu with
  | token ht hsub => exact hsub ▸ (rooted_run hrun).tokens _ ht
  | @request i req hcall hguarded hcalled huser =>
    have hasked := asked_run hcall hguarded hrun hcalled
    obtain ⟨R, h₁, ⟨jwt, hjwt, -, hv⟩, h₂⟩ := hasked.met (φ := req.Presents d)
      (List.mem_append_left _ List.mem_cons_self)
    have hsub : req.userId d = jwt.sub := by rw [Request.userId, hjwt]; rfl
    rw [← huser, hsub]
    exact ((rooted_run h₁).tokens _ (World.mem_issued_of_verifyAsync hv)).later h₂
  | socket hu =>
    obtain ⟨_, _, -, R, h₁, ⟨_, payload, -, -, hmem, -, -, rfl, -⟩, h₂⟩ :=
      presented_run (hquiet _) hrun hu
    exact ((rooted_run h₁).tokens _ hmem).later h₂

end Runs

/-! ### `b` logs in, and is told who he is -/

def siteNobody : Site where
  hub := { siteListed.hub with world := { siteListed.hub.world with issued := [] } }

/-- A token reads as the access token that has been signed for its user. -/
def depsSigned : Deps where
  decode u := some (Auth.signTokens {} siteNobody.hub.world u "j1").accessToken

def loginAndMe : Bool → FrontCall
  | true => .http { route := .kakao { kakaoId := "kb" } }
  | false => .http { bearer := some "b", route := .me }

theorem known_by_login_b : ∃ Q : Pool Site FrontPc Bool,
    (Q.pcs false).answer.any Answer.isMe = true ∧
    LoggedIn depsSigned Discipline.free loginAndMe
      ((front depsSigned).initial loginAndMe siteNobody) Q "b" := by
  have hexec : ((front depsSigned).exec always loginAndMe
      ((front depsSigned).initial loginAndMe siteNobody)
      (plays true 6 { id := "j1" } ++ plays false 4)).any
      (fun Q => (Q.pcs false).answer.any Answer.isMe && (Q.pcs false).called) = true := by decide
  obtain ⟨Q, hrun, hQ⟩ := Machine.exec_reaches_free hexec
  obtain ⟨hme, hcalled⟩ := Bool.and_eq_true_iff.1 hQ
  exact ⟨Q, hme, known_by_login (fun _ => rfl) hrun (.request rfl rfl hcalled rfl)⟩

end Http

end Intaktok
