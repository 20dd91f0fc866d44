import Intaktok.Http.Cleared
/-
# Who writes where

Each service writes tables of its own (`Footprint`). So a change of the database names the kind of
call it comes from, and a request behind guards has met them before (`writes_by_right`). The
unguarded ways in are few: a login, the whitelist set at boot, the tokens FCM has refused, and the
events of sockets. Of the accounts a socket writes the time its user was last seen, and only when it
disconnects.
-/

namespace Intaktok.Http

open Interleave Tables Realtime

variable {d : Deps}

/-- The tables a service writes; all others it leaves alone. -/
def Footprint (db db' : Db) : Service → Prop
  | .auth => ∃ users whitelist accessRequests,
      db' = { db with users, whitelist, accessRequests }
  | .admin => ∃ users whitelist, db' = { db with users, whitelist }
  | .whitelist => ∃ whitelist accessRequests, db' = { db with whitelist, accessRequests }
  | .messages | .rooms => ∃ messages rooms roomMembers,
      db' = { db with messages, rooms, roomMembers }
  | .roomUpdates => ∃ messages rooms, db' = { db with messages, rooms }
  | .push => ∃ pushTokens, db' = { db with pushTokens }
  | .media => ∃ media, db' = { db with media }
  | .profile => ∃ profiles, db' = { db with profiles }

theorem footprint_of_service {cfg : AppConfig} {json : Messages.Json} {c : Choice} {s : Service}
    {call : s.Call} {w w' : World} {pc pc' : s.Pc}
    (h : (s.machine cfg json).step c call w pc = some (w', pc')) : Footprint w.db w'.db s := by
  cases s with
  | auth => obtain ⟨users, whitelist, requests, _, _, rfl⟩ := Auth.step_db h; exact ⟨_, _, _, rfl⟩
  | admin => exact (Admin.step_db h).1
  | whitelist => obtain ⟨whitelist, accessRequests, rfl⟩ := Admin.entryStep_db h; exact ⟨_, _, rfl⟩
  | messages => exact (Messages.step_db h).1
  | rooms => exact (Rooms.step_db h).1
  | roomUpdates =>
    obtain ⟨r, a, dto⟩ := call
    exact (Rooms.updateStep_db h).1
  | push => obtain ⟨pushTokens, _, rfl⟩ := Push.step_db h; exact ⟨_, rfl⟩
  | media => obtain ⟨media, _, rfl⟩ := MediaService.step_db h; exact ⟨_, rfl⟩
  | profile => obtain ⟨profiles, rfl⟩ := ProfileService.step_db h; exact ⟨_, rfl⟩

/-- What an action of a socket writes: its events the tables of a message, each those it is about,
and where it disconnects the time somebody was last seen. A handshake writes none, nor does who
joins a room of Socket.IO. -/
def SocketFootprint (db db' : Db) : Realtime.Call ⊕ EventCall → Prop
  | .inl (.connect _ _) | .inr (.roomJoin _ _) => db' = db
  | .inl (.messageRead _ _) => ∃ roomMembers, db' = { db with roomMembers }
  | .inr (.messageSend _ _) => ∃ messages rooms, db' = { db with messages, rooms }
  | .inr (.messageDelete _ _) => ∃ messages, db' = { db with messages }
  | .inr (.disconnect _) => ∃ lastSeenAt, db' = { db with lastSeenAt }

theorem SocketFootprint.db {db db' : Db} {call : Realtime.Call ⊕ EventCall}
    (h : SocketFootprint db db' call) : ∃ messages rooms roomMembers lastSeenAt,
      db' = { db with messages, rooms, roomMembers, lastSeenAt } := by
  unfold SocketFootprint at h
  split at h
  · exact ⟨_, _, _, _, h⟩
  · exact ⟨_, _, _, _, h⟩
  · obtain ⟨roomMembers, rfl⟩ := h
    exact ⟨_, _, roomMembers, _, rfl⟩
  · obtain ⟨messages, rooms, rfl⟩ := h
    exact ⟨messages, rooms, _, _, rfl⟩
  · obtain ⟨messages, rfl⟩ := h
    exact ⟨messages, _, _, _, rfl⟩
  · obtain ⟨lastSeenAt, rfl⟩ := h
    exact ⟨_, _, _, lastSeenAt, rfl⟩

theorem footprint_of_event {cfg : AppConfig} {json : Messages.Json} {c : Choice} {call : EventCall}
    {h h' : Hub} {pc pc' : EventPc} (hs : eventStep cfg json c call h pc = some (h', pc')) :
    SocketFootprint h.world.db h'.world.db (.inr call) := by
  cases acts_of_event hs with
  | send hsend => obtain ⟨_, rfl, hdb, -⟩ := hsend.world; exact hdb
  | delete hdelete => obtain ⟨_, rfl, hdb, -⟩ := hdelete.world; exact hdb
  | @join id roomId pc _ _ hjoin => cases pc <;> cases hjoin <;> rfl
  | leave hleave => exact (disconnectStep_world hleave).2.1

theorem footprint_of_socket {c : Choice} {call : Realtime.Call ⊕ EventCall} {h h' : Hub}
    {pc pc' : ServerPc} (hs : (back d).step c (.inl call) h pc = some (h', pc')) :
    SocketFootprint h.world.db h'.world.db call := by
  obtain ⟨h₁, hacts, rfl⟩ := server_step hs
  rw [world_deliver]
  cases hacts with
  | socket hsocket =>
    cases acts_of_socket hsocket with
    | connect hconnect => exact (connectStep_world hconnect).1
    | read hread => obtain ⟨_, rfl, hdb, -⟩ := onReadStep_world hread; exact hdb
  | event hevent => exact footprint_of_event hevent

/-- A process that serves a call does what the service does. -/
theorem footprint_of_served {c : Choice} {s : Service} {call : s.Call} {h h' : Hub}
    {pc pc' : ServerPc} (hs : (back d).step c (.inr ⟨s, call⟩) h pc = some (h', pc')) :
    ∃ pc₁ pc₁', pc = .inr ⟨s, pc₁⟩ ∧
      (s.machine d.cfg d.json).step c call h.world pc₁ = some (h'.world, pc₁') ∧
      Footprint h.world.db h'.world.db s := by
  obtain ⟨h₁, hacts, rfl⟩ := server_step hs
  rw [world_deliver]
  cases hacts with
  | service hservice => exact ⟨_, _, rfl, hservice, footprint_of_service hservice⟩

theorem socket_of_call {k : FrontCall} {call : Realtime.Call ⊕ EventCall}
    (h : k.call d = .inl call) : k = .socket call := by
  cases k with
  | socket => cases h; rfl
  | http req =>
    simp only [FrontCall.call] at h
    split at h <;> cases h
  | _ => cases h

/-- Where the database changes, a socket or a service has acted. -/
theorem served_of_writes {c : FrontChoice} {k : FrontCall} {s s' : Site} {l l' : FrontPc}
    (hs : (front d).step c k s l = some (s', l')) :
    s'.hub.world.db = s.hub.world.db ∨
    (∃ call, k = .socket call ∧ SocketFootprint s.hub.world.db s'.hub.world.db call) ∨
    ∃ (service : Service) (call : service.Call) (pc pc' : service.Pc),
      k.call d = .inr ⟨service, call⟩ ∧ l = .server (.inr ⟨service, pc⟩) ∧
      (service.machine d.cfg d.json).step c.choice call s.hub.world pc =
        some (s'.hub.world, pc') := by
  cases acts_of_front hs with
  | typed ht => exact .inl (congrArg (·.world.db) (hub_typingStep ht))
  | queried | guarded => exact .inl rfl
  | @served _ pc h' pc' hserved =>
    generalize hcall : k.call d = call at hserved
    rcases call with call | ⟨service, call⟩
    · exact .inr (.inl ⟨call, socket_of_call hcall, footprint_of_socket hserved⟩)
    · obtain ⟨pc₁, pc₁', rfl, hservice, -⟩ := footprint_of_served hserved
      exact .inr (.inr ⟨service, call, pc₁, pc₁', rfl, rfl, hservice⟩)

theorem db_of_env (e : Realtime.Env) (s : Site) :
    ((front d).env e s).hub.world.db = s.hub.world.db := db_env d.cfg e s.hub

/-- Users are written by two services, and by an update of the whitelist. -/
theorem users_of_writes {c : FrontChoice} {k : FrontCall} {s s' : Site} {l l' : FrontPc}
    (hs : (front d).step c k s l = some (s', l')) :
    s'.hub.world.db.users = s.hub.world.db.users ∨
    (∃ call pc pc', k.call d = .inr ⟨.auth, call⟩ ∧ l = .server (.inr ⟨.auth, pc⟩) ∧
      Auth.step d.cfg c.choice call s.hub.world pc = some (s'.hub.world, pc')) ∨
    ∃ id dto pc pc', k.call d = .inr ⟨.admin, .update id dto⟩ ∧ l = .server (.inr ⟨.admin, pc⟩) ∧
      Admin.Acts c.choice s.hub.world id dto pc s'.hub.world pc' := by
  rcases served_of_writes hs with hsame | ⟨_, -, hf⟩ |
    ⟨service, call, pc, pc', hcall, hpc, hservice⟩
  · exact .inl (by rw [hsame])
  · obtain ⟨_, _, _, _, hdb⟩ := hf.db
    exact .inl (by rw [hdb])
  have hf := footprint_of_service hservice
  cases service with
  | auth => exact .inr (.inl ⟨call, pc, pc', hcall, hpc, hservice⟩)
  | admin =>
    obtain ⟨id, dto⟩ := call
    exact .inr (.inr ⟨id, dto, pc, pc', hcall, hpc, Admin.acts_of_step hservice⟩)
  | whitelist | roomUpdates => obtain ⟨_, _, hdb⟩ := hf; exact .inl (by rw [hdb])
  | messages | rooms => obtain ⟨_, _, _, hdb⟩ := hf; exact .inl (by rw [hdb])
  | push | media | profile => obtain ⟨_, hdb⟩ := hf; exact .inl (by rw [hdb])

/-- Profiles are written by their service. -/
theorem profiles_of_writes {c : FrontChoice} {k : FrontCall} {s s' : Site} {l l' : FrontPc}
    (hs : (front d).step c k s l = some (s', l')) :
    s'.hub.world.db.profiles = s.hub.world.db.profiles ∨
    ∃ call pc pc', k.call d = .inr ⟨.profile, call⟩ ∧ l = .server (.inr ⟨.profile, pc⟩) ∧
      ProfileService.step d.cfg call s.hub.world pc = some (s'.hub.world, pc') := by
  rcases served_of_writes hs with hsame | ⟨_, -, hf⟩ |
    ⟨service, call, pc, pc', hcall, hpc, hservice⟩
  · exact .inl (by rw [hsame])
  · obtain ⟨_, _, _, _, hdb⟩ := hf.db
    exact .inl (by rw [hdb])
  have hf := footprint_of_service hservice
  cases service with
  | profile => exact .inr ⟨call, pc, pc', hcall, hpc, hservice⟩
  | auth => obtain ⟨_, _, _, hdb⟩ := hf; exact .inl (by rw [hdb])
  | admin | whitelist | roomUpdates => obtain ⟨_, _, hdb⟩ := hf; exact .inl (by rw [hdb])
  | messages | rooms => obtain ⟨_, _, _, hdb⟩ := hf; exact .inl (by rw [hdb])
  | push | media => obtain ⟨_, hdb⟩ := hf; exact .inl (by rw [hdb])

/-- Of the calls without guards a login writes the database. -/
theorem kakaoLogin_of_writes {c : Choice} {call : Auth.Call} {w w' : World} {pc pc' : Auth.Pc}
    (h : Auth.step d.cfg c call w pc = some (w', pc')) (hw : w'.db ≠ w.db) :
    ∃ info, call = .kakaoLogin info := by
  cases Auth.acts_of_step h with
  | record | enroll | enrollFailed => exact ⟨_, rfl⟩
  | sweep hsw | swept hsw =>
    rcases sweepStep_world hsw with rfl | ⟨key, rfl⟩ <;> exact absurd rfl hw
  | _ => exact absurd rfl hw

/-- An upload goes to the storage alone. -/
theorem db_of_put {c : Choice} {key : String} {n : Nat} {w w' : World} {pc pc' : MediaService.Pc}
    (h : MediaService.step d.cfg c (.putObject key n) w pc = some (w', pc')) : w'.db = w.db := by
  cases MediaService.acts_of_step h
  rfl

/-! ## What has a call behind it -/

def FrontCall.serves (d : Deps) : FrontCall → Bool
  | .typing _ _ _ => false
  | .http req => match req.handler d with
    | .serve _ _ => true
    | _ => false
  | _ => true

/-- Such a call comes over HTTP. -/
theorem http_of_call {k : FrontCall} {s : Service} {call : s.Call}
    (h : k.call d = .inr ⟨s, call⟩) (hs : s ≠ .whitelist ∧ s ≠ .push ∧ s ≠ .media) :
    ∃ req, k = .http req ∧ req.handler d = .serve s call := by
  cases k with
  | http req =>
    simp only [FrontCall.call] at h
    split at h
    · rename_i s₁ call₁ hhandler
      cases h
      exact ⟨req, rfl, hhandler⟩
    · cases h
      exact absurd rfl hs.1
  | socket => cases h
  | typing | boot => cases h; exact absurd rfl hs.1
  | listener => cases h; exact absurd rfl hs.2.1
  | put => cases h; exact absurd rfl hs.2.2

theorem serves_of_guardStep {c : FrontChoice} {req : Request} {w : World} {l : FrontPc}
    {pc : ServerPc} (h : guardStep d c req w l = some (.server pc)) :
    (FrontCall.http req).serves d = true := by
  have h := enter_of_guardStep h rfl
  unfold enter at h
  simp only [FrontCall.serves]
  cases hh : req.handler d <;> rw [hh] at h <;> first | rfl | cases h

/-! ## Runs -/

section Runs
variable {ι : Type} [DecidableEq ι] (d) (D : Discipline Site FrontCall FrontPc)
  (calls : ι → FrontCall) (P : Pool Site FrontPc ι)

/-- By what right `i` changes the database in the state `R`. -/
inductive Rightful (R : Pool Site FrontPc ι) (i : ι) (db db' : Db) : Prop
  | request {req : Request} {s : Service} {call : s.Call} : calls i = .http req →
      req.route.guards.isSome = true → req.handler d = .serve s call →
      InTurn (front d) D calls P (req.checks d) R → Footprint db db' s → Rightful R i db db'
  | login {req : Request} {info : Auth.KakaoUserInfo} : calls i = .http req →
      req.route = .kakao info → Footprint db db' .auth → Rightful R i db db'
  | boot {kakaoIds} : calls i = .boot kakaoIds → Footprint db db' .whitelist → Rightful R i db db'
  | listener {message ids preview title} : calls i = .listener message ids preview title →
      Footprint db db' .push → Rightful R i db db'
  | socket {call} : calls i = .socket call → SocketFootprint db db' call → Rightful R i db db'

variable {d D calls} {site : Site} {Q : Pool Site FrontPc ι} {i : ι} {c : FrontChoice} {s' : Site}
  {l' : FrontPc}

theorem serves_run {pc : ServerPc}
    (hrun : Run (front d) D calls ((front d).initial calls site) Q) (hpc : Q.pcs i = .server pc) :
    (calls i).serves d = true := by
  refine hrun.invariant (fun R => ∀ pc, R.pcs i = .server pc → (calls i).serves d = true)
    ?_ ?_ ?_ pc hpc
  · intro pc hpc
    simp only [Machine.initial] at hpc
    generalize calls i = k at hpc
    cases k <;> first | rfl | cases hpc
  · intro R j c s' l' _ hI _ hs pc hpc
    by_cases hj : i = j
    · subst hj
      simp only [Function.update_self] at hpc
      subst hpc
      generalize hk : calls i = k at hs hI ⊢
      generalize hl : R.pcs i = l at hs hI
      cases acts_of_front hs with
      | served => exact hI _ rfl
      | guarded hguard => exact serves_of_guardStep hguard
    · exact hI pc (by simpa only [Function.update_of_ne hj] using hpc)
  · exact fun _ hI => hI

/-- A process that serves a call has just begun to, or goes on. -/
theorem service_of_step {c : FrontChoice} {k : FrontCall} {s : Service} {call : s.Call}
    {S S' : Site} {l : FrontPc} {pc : s.Pc} (hcall : k.call d = .inr ⟨s, call⟩)
    (hs : (front d).step c k S l = some (S', .server (.inr ⟨s, pc⟩))) :
    pc = (s.machine d.cfg d.json).start call ∨ ∃ pc₀, l = .server (.inr ⟨s, pc₀⟩) ∧
      (s.machine d.cfg d.json).step c.choice call S.hub.world pc₀ = some (S'.hub.world, pc) := by
  cases acts_of_front hs with
  | served hserved =>
    rw [hcall] at hserved
    obtain ⟨h₁, hacts, rfl⟩ := server_step hserved
    dsimp only
    rw [world_deliver]
    cases hacts with
    | @service _ _ pc₀ _ w hservice => exact .inr ⟨pc₀, rfl, hservice⟩
  | guarded hguard =>
    have hstart := behind_guardStep hguard
    rw [hcall] at hstart
    cases hstart
    exact .inl rfl

/-- A request that has passed a checkpoint of its service has met what this asks for. -/
theorem served_passed {P : Pool Site FrontPc ι} {s : Service} {call : s.Call} {p : s.Pc → Prop}
    {φ : World → s.Pc → Prop} (hrun : Run (front d) D calls ((front d).initial calls site) P)
    (hcall : (calls i).call d = .inr ⟨s, call⟩)
    (h0 : ¬ p ((s.machine d.cfg d.json).start call))
    (hstep : ∀ {c w w' pc pc'}, (s.machine d.cfg d.json).step c call w pc = some (w', pc') →
      p pc' → p pc ∨ φ w pc)
    {pc : s.Pc} (hpc : P.pcs i = .server (.inr ⟨s, pc⟩)) (hp : p pc) :
    Met (front d) D calls ((front d).initial calls site)
      (fun R => ∃ pc, R.pcs i = .server (.inr ⟨s, pc⟩) ∧ φ R.shared.hub.world pc) P := by
  have hmet := hrun.passed
    (p := fun k l => k.call d = .inr ⟨s, call⟩ ∧ ∃ pc, l = .server (.inr ⟨s, pc⟩) ∧ p pc)
    (φ := fun k R l => k.call d = .inr ⟨s, call⟩ ∧
      ∃ pc, l = .server (.inr ⟨s, pc⟩) ∧ φ R.hub.world pc)
    ?_ ?_ i ⟨hcall, pc, hpc, hp⟩
  · obtain ⟨R, h₁, ⟨-, hφ⟩, h₂⟩ := hmet
    exact ⟨R, h₁, hφ, h₂⟩
  · rintro j ⟨hj, pc, hpc, hp⟩
    have hstart := (fronts d).start (calls j)
    change (front d).start (calls j) = .server (.inr ⟨s, pc⟩) at hpc
    rw [hpc, hj] at hstart
    cases hstart
    exact h0 hp
  · rintro c k R l s' l' hs ⟨hk, pc', rfl, hp⟩
    rcases service_of_step hk hs with rfl | ⟨pc₀, rfl, hservice⟩
    · exact absurd hp h0
    · rcases hstep hservice hp with hold | hφ
      · exact .inl ⟨hk, pc₀, rfl, hold⟩
      · exact .inr (.inl ⟨hk, pc₀, rfl, hφ⟩)

/-- A request that writes is behind the last of its guards. -/
theorem cleared_of_writes {c : FrontChoice} {req : Request} {S S' : Site} {pc : ServerPc}
    {l' : FrontPc} (hs : (front d).step c (.http req) S (.server pc) = some (S', l'))
    (hw : S'.hub.world.db ≠ S.hub.world.db) : req.cleared (.server pc) = true := by
  cases acts_of_front hs with
  | served hserved =>
    simp only [Request.cleared, Bool.or_eq_true, Bool.not_eq_true']
    by_contra hno
    simp only [not_or, Bool.not_eq_false, Bool.not_eq_true] at hno
    exact hw (guard_of_served hno.1 hserved hno.2).1
  | guarded hguard => cases hguard

/-- **Writes by right.** Whatever is in flight: who changes the database has the right to, and
changes only tables that are his to change. -/
theorem writes_by_right
    (hrun : Run (front d) D calls ((front d).initial calls site) Q)
    (hs : (front d).step c (calls i) Q.shared (Q.pcs i) = some (s', l'))
    (hw : s'.hub.world.db ≠ Q.shared.hub.world.db) :
    Rightful d D calls ((front d).initial calls site) Q i Q.shared.hub.world.db
      s'.hub.world.db := by
  rcases served_of_writes hs with hsame | ⟨call, hk, hf⟩ |
    ⟨s, call, pc, pc', hcall, hpc, hservice⟩
  · exact absurd hsame hw
  · exact .socket hk hf
  have hf := footprint_of_service hservice
  have hserves := serves_run hrun hpc
  have hclear : ∀ req, calls i = .http req → req.route.guards.isSome = true →
      InTurn (front d) D calls ((front d).initial calls site) (req.checks d) Q := by
    intro req hcall hguarded
    refine cleared_run hcall hguarded hrun ?_
    rw [hcall, hpc] at hs
    rw [hpc]
    exact cleared_of_writes hs hw
  generalize hk : calls i = k at hcall hserves
  cases k with
  | socket => cases hcall
  | typing => cases hserves
  | boot kakaoIds => cases hcall; exact .boot hk hf
  | listener => cases hcall; exact .listener hk hf
  | put => cases hcall; exact absurd (db_of_put hservice) hw
  | http req =>
    simp only [FrontCall.serves] at hserves
    split at hserves
    · rename_i s₁ call₁ hhandler
      simp only [FrontCall.call, hhandler] at hcall
      cases hcall
      by_cases hguarded : req.route.guards.isSome = true
      · exact .request hk hguarded hhandler (hclear req hk hguarded) hf
      · obtain ⟨bearer, route⟩ := req
        cases route <;> first | exact absurd rfl hguarded | skip
        case kakao => cases hhandler; exact .login hk rfl hf
        all_goals
          simp only [Request.handler, Route.handler] at hhandler
          split at hhandler <;> cases hhandler
          obtain ⟨_, hlogin⟩ := kakaoLogin_of_writes hservice hw
          cases hlogin
    · cases hserves

end Runs

/-! ### An admin invites somebody -/

theorem writes_by_right_invite : ∃ (Q : Pool Site FrontPc Unit) (s' : Site) (l' : FrontPc),
    (front depsAB).step { choice := { id := "w1" } } (.http invite) Q.shared (Q.pcs ()) =
      some (s', l') ∧
    s'.hub.world.db.whitelist.rows.any (·.kakaoId == some "k9") = true ∧
    Rightful depsAB Discipline.free (fun _ => .http invite)
      ((front depsAB).initial (fun _ => .http invite) siteAB) Q () Q.shared.hub.world.db
      s'.hub.world.db := by
  have hexec : ((front depsAB).exec always (fun _ => .http invite)
      ((front depsAB).initial (fun _ => .http invite) siteAB) (plays () 5)).any (fun Q =>
        Q.shared.hub.world.db.whitelist.rows.isEmpty &&
        ((front depsAB).step { choice := { id := "w1" } } (.http invite) Q.shared (Q.pcs ())).any
          fun r => r.1.hub.world.db.whitelist.rows.any (·.kakaoId == some "k9")) = true := by
    decide
  obtain ⟨Q, hrun, hQ⟩ := Machine.exec_reaches_free hexec
  obtain ⟨hbefore, hQ⟩ := Bool.and_eq_true_iff.1 hQ
  obtain ⟨⟨s', l'⟩, hs, hrow⟩ := (Option.any_eq_true _ _).1 hQ
  refine ⟨Q, s', l', hs, hrow, writes_by_right hrun hs ?_⟩
  intro hsame
  rw [hsame, List.isEmpty_iff.1 hbefore] at hrow
  cases hrow

end Intaktok.Http
