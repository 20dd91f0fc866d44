import Intaktok.Http.Accounts
import Intaktok.Realtime.MediaProvenance
/-
# Profiles, and what a guard may rely on

The profile of a user is his own work: it changes only as a request of his own asks for, and an
avatar it names is an upload of his (`profiles_by_owner`). An update is laid over the row as it is
when it is written, not as it was when the request began, for others of the same user may have
written in between.

A user who has been onboarded stays so, and one who is an admin too. So of the three guards two
hold, while a request is served, as they did when they were asked (`guards_last`); the third,
`RoomMemberGuard`, is the one that races.
-/

namespace Intaktok.ProfileService

open Tables

def profileOf (db : Db) (u : String) : Option Profile := db.profiles.find (·.userId == u)

/-- What the write of a request makes of the profile of its user. -/
def Call.applied (call : Call) (now : Nat) (row : Option Profile) : Option Profile :=
  match call with
  | .create userId dto => some (dto.apply now (row.getD { userId, nickname := dto.nickname }))
  | .update _ dto => row.map dto.apply

theorem find_updateProfile (t : Table Profile) (u v : String) (f : Profile → Profile)
    (keeps : ∀ p, (f p).userId = p.userId) :
    (updateProfile t u f keeps).find (·.userId == v) =
      if v = u then (t.find (·.userId == u)).map f else t.find (·.userId == v) := by
  have hfind := Table.find_updateWhere t (·.userId == u) (·.userId == v) f
    (fun _ a b => by simp [Row.clash, keeps a]) fun p => by rw [keeps p]
  change (updateProfile t u f keeps).find _ = _ at hfind
  rw [hfind]
  split
  · rename_i h
    subst h
    cases hf : t.find (·.userId == v) with
    | none => rfl
    | some p => rw [Option.map_some, if_pos (Table.find_some hf).2, Option.map_some]
  · rename_i h
    cases hf : t.find (·.userId == v) with
    | none => rfl
    | some p =>
      have hp := beq_iff_eq.1 (Table.find_some hf).2
      rw [Option.map_some, if_neg (by simpa [hp] using h)]

/-- Only the write changes a profile, and only that of the user of the request. -/
theorem profileOf_of_step {cfg : AppConfig} {call : Call} {w w' : World} {pc pc' : Pc}
    (h : step cfg call w pc = some (w', pc')) (u : String) :
    profileOf w'.db u = profileOf w.db u ∨
      pc = .write ∧ u = call.userId ∧
        profileOf w'.db u = call.applied w.now (profileOf w.db u) := by
  cases pc <;> simp only [step] at h
  case existing => cases call <;> cases h <;> exact .inl rfl
  case avatar => cases h; exact .inl rfl
  case resolve => cases h; exact .inl rfl
  case done => cases call <;> cases h
  case write =>
    cases call with
    | create userId dto =>
      simp only [createStep] at h
      split at h
      · rename_i row hf
        cases h
        have hfind := find_updateProfile w.db.profiles userId u (dto.apply w.now) fun _ => rfl
        by_cases hu : u = userId
        · subst hu
          rw [if_pos rfl, hf] at hfind
          exact .inr ⟨rfl, rfl, hfind.trans (by rw [profileOf, hf]; rfl)⟩
        · exact .inl (hfind.trans (if_neg hu))
      · rename_i hf
        split at h
        · cases h; exact .inl rfl
        · rename_i t ht
          split at h <;> cases h
          · have hfind := Table.find_insert ht (·.userId == u)
            by_cases hu : u = userId
            · subst hu
              rw [hf, if_pos (beq_self_eq_true _)] at hfind
              exact .inr ⟨rfl, rfl, hfind.trans (by rw [profileOf, hf]; rfl)⟩
            · rw [if_neg (by simpa using Ne.symm hu), Option.or_none] at hfind
              exact .inl hfind
          · exact .inl rfl
    | update userId dto =>
      simp only [updateStep] at h
      split at h
      · cases h; exact .inl rfl
      · split at h <;> cases h
        · exact .inl rfl
        · have hfind := find_updateProfile w.db.profiles userId u dto.apply fun _ => rfl
          by_cases hu : u = userId
          · subst hu
            exact .inr ⟨rfl, rfl, hfind.trans (if_pos rfl)⟩
          · exact .inl (hfind.trans (if_neg hu))

/-! ## Onboarded for good -/

def Onboarded (db : Db) (u : String) : Prop :=
  (profileOf db u).any (·.onboardedAt.isSome) = true

theorem Onboarded.of_step {cfg : AppConfig} {call : Call} {w w' : World} {pc pc' : Pc} {u : String}
    (h : Onboarded w.db u) (hs : step cfg call w pc = some (w', pc')) : Onboarded w'.db u := by
  rcases profileOf_of_step hs u with hsame | ⟨-, -, hwritten⟩
  · rwa [Onboarded, hsame]
  · rw [Onboarded, hwritten]
    obtain ⟨row, hrow, ho⟩ := (Option.any_eq_true _ _).1 h
    rw [hrow]
    cases call with
    | create => rfl
    | update => exact ho

theorem onboarded_iff {db : Db} {u : String} :
    Onboarded db u ↔ ∃ p ∈ db.profiles.rows, p.userId = u ∧ p.onboardedAt.isSome = true := by
  rw [Onboarded, Option.any_eq_true]
  constructor
  · rintro ⟨p, hf, ho⟩
    obtain ⟨hmem, hu⟩ := Table.find_some hf
    exact ⟨p, hmem, beq_iff_eq.1 hu, ho⟩
  · rintro ⟨p, hmem, rfl, ho⟩
    refine ⟨p, Table.find_eq hmem (beq_self_eq_true _) fun x hx hu => ?_, ho⟩
    exact db.profiles.unique hx hmem (c := ()) (by decide) (by simpa [Row.clash] using hu)

end Intaktok.ProfileService

namespace Intaktok.Http

open Interleave Tables Realtime ProfileService

section Runs
variable {ι : Type} [DecidableEq ι] {d : Deps} {D : Discipline Site FrontCall FrontPc}
  {calls : ι → FrontCall} {site : Site} {P Q : Pool Site FrontPc ι} {i : ι}

/-! ## Whose work a profile is -/

/-- The request for a change of his profile that a user makes. -/
def Route.profileCall (userId : String) : Route → Option ProfileService.Call
  | .createProfile dto => some (.create userId dto)
  | .updateProfile dto => some (.update userId dto)
  | _ => none

/-- By what right `i` changes the profile of `u` in the state `R`. -/
structure ProfileRight (d : Deps) (D : Discipline Site FrontCall FrontPc) (calls : ι → FrontCall)
    (P : Pool Site FrontPc ι) (u : String) (v : Option Profile) (R : Pool Site FrontPc ι) (i : ι)
    (req : Request) (call : ProfileService.Call) : Prop where
  request : calls i = .http req
  own : req.userId d = u ∧ req.route.profileCall u = some call
  cleared : InTurn (front d) D calls P (req.checks d) R
  /-- An avatar it names is an upload of his. -/
  vouched : Vouched R.shared.hub.world.db call.media u
  /-- The request, and nothing but it, is laid over what is there. -/
  laid : v = call.applied R.shared.hub.world.now (profileOf R.shared.hub.world.db u)

theorem route_of_profile {req : Request} {call : ProfileService.Call}
    (h : req.handler d = .serve .profile call) :
    req.route.profileCall (req.userId d) = some call ∧ call.userId = req.userId d ∧
      req.route.guards.isSome = true ∧ req.route.guardsItself = false := by
  obtain ⟨bearer, route⟩ := req
  cases route <;> simp only [Request.handler, Route.handler] at h <;>
    first | (cases h; exact ⟨rfl, rfl, rfl, rfl⟩) | cases h | (split at h <;> cases h)

/-- An avatar that is about to be written is an upload of the user. -/
theorem vouched_run {call : ProfileService.Call}
    (hrun : Run (front d) D calls ((front d).initial calls site) Q)
    (hcall : (calls i).call d = .inr ⟨.profile, call⟩)
    (hpc : Q.pcs i = .server (.inr ⟨.profile, .write⟩)) :
    Vouched Q.shared.hub.world.db call.media call.userId := by
  have hchecked := checked_run (fun j => checked_start d.cfg d.decode site.hub.world.db
    ((FrontCall.call d ∘ calls) j)) ((fronts d).run_initial hrun) i
  have hbehind : (Behind d calls Q).pcs i = .inr ⟨.profile, .write⟩ := by
    show behind d (calls i) (Q.pcs i) = _
    rw [hpc]
    rfl
  rw [hbehind, Function.comp_apply, hcall] at hchecked
  exact hchecked.2

/-- **Profiles by their owners.** Whatever is in flight: where the profile of a user has changed,
it has become what a request of his makes of the row before, and an avatar named in it is his. -/
theorem profiles_by_owner (hrun : Run (front d) D calls ((front d).initial calls site) Q)
    {u : String} {v : Option Profile} (hbefore : profileOf site.hub.world.db u ≠ v)
    (hv : profileOf Q.shared.hub.world.db u = v) :
    Brought (front d) D calls ((front d).initial calls site)
      (fun s => profileOf s.hub.world.db u = v)
      (fun R i => ∃ req call, ProfileRight d D calls ((front d).initial calls site) u v R i req call)
      Q := by
  refine hrun.brought hbefore ?_ ?_ hv
  · intro R i c s' l' hr _ hs hno hyes
    rcases profiles_of_writes hs with hsame | ⟨call, pc, pc', hcall, hpc, hservice⟩
    · exact absurd (by rwa [profileOf, hsame] at hyes) hno
    rcases profileOf_of_step hservice u with hsame | ⟨rfl, rfl, hlaid⟩
    · exact absurd (hsame.symm.trans hyes) hno
    obtain ⟨req, hreq, hhandler⟩ := http_of_call hcall (by decide)
    obtain ⟨hroute, hu, hguarded, hself⟩ := route_of_profile hhandler
    exact ⟨req, call, hreq, ⟨hu.symm, hu ▸ hroute⟩,
      cleared_run hreq hguarded hr (by rw [hpc]; exact cleared_of_called hself rfl),
      vouched_run hr hcall hpc, hyes.symm.trans hlaid⟩
  · intro e s hyes
    rwa [db_of_env] at hyes

/-! ## What lasts -/

theorem onboarded_of_run {u : String} (hrun : Run (front d) D calls P Q)
    (h : Onboarded P.shared.hub.world.db u) : Onboarded Q.shared.hub.world.db u := by
  refine hrun.relates (r := fun s s' => Onboarded s.hub.world.db u → Onboarded s'.hub.world.db u)
    (fun _ => id) ?_ ?_ ?_ h
  · exact fun h h' hu => h' (h hu)
  · intro c k s l s' l' hs h
    rcases profiles_of_writes hs with hsame | ⟨call, pc, pc', -, -, hservice⟩
    · rwa [Onboarded, profileOf, hsame]
    · exact h.of_step hservice
  · intro e s h
    rwa [db_of_env]

theorem isAdmin_of_run {u : String} (hrun : Run (front d) D calls P Q)
    (h : IsAdmin d.adminIds P.shared.hub.world.db u) :
    IsAdmin d.adminIds Q.shared.hub.world.db u := by
  refine ⟨h.1, h.2.imp_right ?_⟩
  rintro ⟨user, hmem, hid, hk⟩
  have hkey := usersStay_of_run hrun _ (Auth.mem_userKeys.2 ⟨user, hmem, rfl, rfl⟩)
  obtain ⟨user', hmem', hid', hk'⟩ := Auth.mem_userKeys.1 hkey
  exact ⟨user', hmem', hid'.trans hid, hk' ▸ hk⟩

/-- **What a guard may rely on.** Whatever is in flight: while a request is served, its caller is
onboarded, or an admin, as its guards have found. -/
theorem guards_last {req : Request} {g : Guard}
    (hrun : Run (front d) D calls ((front d).initial calls site) Q) (hcall : calls i = .http req)
    (hguarded : req.route.guards.isSome = true) (hcalled : (Q.pcs i).called = true)
    (hg : g ∈ req.guards d) (hlasts : g ≠ .roomMember) : req.Passes d g Q.shared := by
  have hchecks := asked_run hcall hguarded hrun hcalled
  obtain ⟨R, -, hpassed, hlater⟩ := hchecks.met (φ := req.Passes d g)
    (List.mem_append_right _ (List.mem_map_of_mem hg))
  cases g with
  | onboarded => exact onboarded_iff.1 (onboarded_of_run hlater (onboarded_iff.2 hpassed))
  | admin => exact isAdmin_of_run hlater hpassed
  | roomMember => exact absurd rfl hlasts

end Runs

/-! ### `a` changes his nickname -/

def renameA : Request where
  bearer := some "a"
  route := .updateProfile { nickname := some (some "A2") }

theorem profiles_by_owner_a : ∃ Q : Pool Site FrontPc Unit,
    (profileOf Q.shared.hub.world.db "a").map (·.nickname) = some "A2" ∧
    Brought (front depsAB) Discipline.free (fun _ => .http renameA)
      ((front depsAB).initial (fun _ => .http renameA) siteAB)
      (fun s => profileOf s.hub.world.db "a" = profileOf Q.shared.hub.world.db "a")
      (fun R i => ∃ req call, ProfileRight depsAB Discipline.free (fun _ => .http renameA)
        ((front depsAB).initial (fun _ => .http renameA) siteAB) "a"
        (profileOf Q.shared.hub.world.db "a") R i req call) Q := by
  have hexec : ((front depsAB).exec always (fun _ => .http renameA)
      ((front depsAB).initial (fun _ => .http renameA) siteAB) (plays () 5)).any
      (fun Q => (profileOf Q.shared.hub.world.db "a").map (·.nickname) == some "A2") = true := by
    decide
  obtain ⟨Q, hrun, hQ⟩ := Machine.exec_reaches_free hexec
  have hname := beq_iff_eq.1 hQ
  refine ⟨Q, hname, profiles_by_owner hrun (fun hsame => ?_) rfl⟩
  rw [← hsame] at hname
  revert hname
  decide

theorem guards_last_invite : ∃ Q : Pool Site FrontPc Unit, (Q.pcs ()).called = true ∧
    IsAdmin ["a"] Q.shared.hub.world.db "a" := by
  have hexec : ((front depsAB).exec always (fun _ => .http invite)
      ((front depsAB).initial (fun _ => .http invite) siteAB) (plays () 5)).any
      (fun Q => (Q.pcs ()).called) = true := by decide
  obtain ⟨Q, hrun, hcalled⟩ := Machine.exec_reaches_free hexec
  exact ⟨Q, hcalled, guards_last (g := .admin) hrun rfl rfl hcalled (.head _) (by decide)⟩

end Intaktok.Http
