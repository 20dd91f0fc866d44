import Intaktok.Admin.BlockSticks
import Intaktok.Lib.Ledger
import Intaktok.Lib.Serial
/-
# The sessions and the ledger of refresh tokens

`sessions` is the system of logins, refreshes, logouts and admin operations that also keeps the
ledger of its refresh tokens: a token is issued with the `SET` of `issueTokens`, redeemed with the
`DEL` of `refresh`, withdrawn with the `DEL` of `logout`, and everything a user holds is revoked
when `delByPattern` starts, be it on behalf of `refresh` or of `enforceBlock`.

`Tallies` ties Redis to the ledger: the key of an outstanding token is there for as long as the
token is valid, and that of any other token is not. Every complete call keeps it, whatever came
before (`tallies_of_serial`).
-/

namespace Intaktok.Admin

open Interleave Tables Auth Ledger

abbrev Entry := Event Jwt String

def sessionEvent : Calls → Pcs → Option Entry
  | _, .inl (.store _ tokens _) => some (.issued tokens.refreshToken)
  | .inl (.refresh token), .inl .del => some (.redeemed token)
  | .inl (.logout token), .inl .del => some (.withdrawn token)
  | .inl (.refresh token), .inl (.revoke .scan _) => some (.revoked token.sub)
  | _, .inr (.revoke _ userId .scan) => some (.revoked userId)
  | _, _ => none

def sessions (cfg : AppConfig) : Machine (World × List Entry) Calls Pcs Choice Nat :=
  (system cfg).logged sessionEvent

/-- The token has been issued, and since then it was neither redeemed nor logged out, nor was
everything its user holds revoked. -/
def Outstanding (log : List Entry) (token : Jwt) : Prop := Ledger.Outstanding Jwt.sub log token

/-- `verifyAsync` accepts the token, as one of type `refresh`. -/
def Verifies (cfg : AppConfig) (w : World) (token : Jwt) : Prop :=
  w.verifyAsync token cfg.refreshSecret = true ∧ token.type = .refresh

theorem Verifies.issued {cfg : AppConfig} {w : World} {token : Jwt} (h : Verifies cfg w token) :
    token ∈ w.issued := by
  have hv := h.1
  simp only [World.verifyAsync, Bool.and_eq_true, List.contains_iff_mem] at hv
  exact hv.1.1

theorem Verifies.lt {cfg : AppConfig} {w : World} {token : Jwt} (h : Verifies cfg w token) :
    w.now < token.exp * 1000 := by
  have hv := h.1
  simp only [World.verifyAsync, Bool.and_eq_true, decide_eq_true_eq] at hv
  omega

/-- A token that verifies later has verified before. -/
theorem Verifies.earlier {cfg : AppConfig} {w w' : World} {token : Jwt}
    (h : Verifies cfg w' token) (hi : w'.issued = w.issued) (hn : w.now ≤ w'.now) :
    Verifies cfg w token := by
  refine ⟨?_, h.2⟩
  have hv := h.1
  simp only [World.verifyAsync, Bool.and_eq_true, decide_eq_true_eq, hi] at hv ⊢
  have hdiv := Nat.div_le_div_right (c := 1000) hn
  exact ⟨hv.1, by omega⟩

/-! ## Redis and the ledger -/

/-- No two tokens have one key. -/
theorem refreshKey_inj {u v j j' : String} (hu : plainId u = true) (hv : plainId v = true)
    (h : refreshKey u j = refreshKey v j') : u = v ∧ j = j' := by
  have huv : u = v := eq_of_glob_refreshKey hu hv (h ▸ glob_refreshKey hu j)
  subst huv
  refine ⟨rfl, String.toList_inj.1 ?_⟩
  have hl := congrArg String.toList h
  simpa [refreshKey] using hl

def tokenKey (t : Jwt) : String := refreshKey t.sub t.jti

/-- Redis agrees with the ledger, up to the token in `flight`, which is signed but not stored, and
up to the user `but`, whose keys are being deleted. -/
structure Tallies (cfg : AppConfig) (w : World) (log : List Entry) (flight : Option Jwt)
    (but : Option String) : Prop where
  ids : ∀ p ∈ userKeys w, plainId p.1 = true
  subs : ∀ t ∈ w.issued, plainId t.sub = true
  jtis : ∀ s ∈ w.issued, ∀ t ∈ w.issued, s.type = .refresh → t.type = .refresh →
    s.jti = t.jti → s = t
  signed : ∀ t, .issued t ∈ log ∨ flight = some t → t ∈ w.issued ∧ t.type = .refresh
  logged : ∀ t ∈ w.issued, t.type = .refresh → .issued t ∈ log ∨ flight = some t
  inTime : ∀ t, flight = some t → t.exp * 1000 ≤ w.now + cfg.refreshTtl * 1000
  kept : ∀ t, Outstanding log t → ∀ now, now < t.exp * 1000 →
    KeyValue.get now (tokenKey t) w.redis ≠ none
  gone : ∀ t, .issued t ∈ log → ¬ Outstanding log t → but ≠ some t.sub →
    w.lookup (tokenKey t) = none

section Steps
variable {cfg : AppConfig} {w w' : World} {log : List Entry} {flight : Option Jwt}
  {but : Option String} {s t : Jwt}

theorem Tallies.key_ne (h : Tallies cfg w log flight but) (hs : s ∈ w.issued) (ht : t ∈ w.issued)
    (hst : s.type = .refresh) (htt : t.type = .refresh) (hne : s ≠ t) :
    tokenKey s ≠ tokenKey t := fun hk =>
  hne (h.jtis s hs t ht hst htt (refreshKey_inj (h.subs s hs) (h.subs t ht) hk).2)

/-- What touches neither Redis nor the tokens, while time may pass. -/
theorem Tallies.mono (h : Tallies cfg w log flight but) (hr : w'.redis = w.redis)
    (hi : w'.issued = w.issued) (hn : w.now ≤ w'.now)
    (hu : ∀ p ∈ userKeys w', plainId p.1 = true) : Tallies cfg w' log flight but where
  ids := hu
  subs := hi ▸ h.subs
  jtis := hi ▸ h.jtis
  signed := hi ▸ h.signed
  logged := hi ▸ h.logged
  inTime t ht := by have := h.inTime t ht; omega
  kept := hr ▸ h.kept
  gone t ht ho hb := by
    have hg := h.gone t ht ho hb
    simp only [World.lookup, hr] at hg ⊢
    exact KeyValue.get_later_none hn hg

theorem Tallies.tick (h : Tallies cfg w log flight but) (ms : Nat) :
    Tallies cfg (w.tick ms) log flight but := h.mono rfl rfl (Nat.le_add_right _ _) h.ids

/-- `signAsync` of a pair with a fresh jti. -/
theorem Tallies.sign {userId jti : String} (h : Tallies cfg w log none none)
    (hu : plainId userId = true) (hf : freshJti w jti = true) :
    Tallies cfg { w with issued := w.issued ++ [(signTokens cfg w userId jti).accessToken,
      (signTokens cfg w userId jti).refreshToken] } log
      (some (signTokens cfg w userId jti).refreshToken) none := by
  have hfresh : ∀ x ∈ w.issued, x.jti ≠ jti := by
    simp only [freshJti, Bool.and_eq_true, Bool.not_eq_true', List.any_eq_false, beq_iff_eq] at hf
    exact hf.2
  have hmem : ∀ {x}, x ∈ w.issued ++ [(signTokens cfg w userId jti).accessToken,
      (signTokens cfg w userId jti).refreshToken] → x.type = .refresh →
      x ∈ w.issued ∨ x = (signTokens cfg w userId jti).refreshToken := by
    intro x hx ht
    simp only [List.mem_append, List.mem_cons, List.not_mem_nil, or_false] at hx
    rcases hx with hx | rfl | rfl
    · exact .inl hx
    · cases ht
    · exact .inr rfl
  refine ⟨h.ids, fun x hx => ?_, fun x hx y hy hxt hyt hj => ?_, fun x hx => ?_,
    fun x hx ht => ?_, fun x hx => ?_, h.kept, h.gone⟩
  · simp only [List.mem_append, List.mem_cons, List.not_mem_nil, or_false] at hx
    rcases hx with hx | rfl | rfl
    · exact h.subs x hx
    · exact hu
    · exact hu
  · rcases hmem hx hxt with hx | rfl <;> rcases hmem hy hyt with hy | rfl
    · exact h.jtis x hx y hy hxt hyt hj
    · exact absurd hj (hfresh x hx)
    · exact absurd hj.symm (hfresh y hy)
    · rfl
  · rcases hx with hx | hx
    · obtain ⟨hi, ht⟩ := h.signed x (.inl hx)
      exact ⟨List.mem_append_left _ hi, ht⟩
    · cases hx; simp [signTokens]
  · rcases hmem hx ht with hx | rfl
    · rcases h.logged x hx ht with hl | hl
      · exact .inl hl
      · cases hl
    · exact .inr rfl
  · cases hx
    simp only [signTokens]
    omega

/-- The `SET` of `issueTokens`. -/
theorem Tallies.store (h : Tallies cfg w log (some t) none) :
    Tallies cfg (w.set (tokenKey t) (.str "1") cfg.refreshTtl) (log ++ [.issued t]) none none := by
  obtain ⟨ht, htt⟩ := h.signed t (.inr rfl)
  have hother : ∀ {x}, x ≠ t → x ∈ w.issued → x.type = .refresh → ∀ now,
      KeyValue.get now (tokenKey x) (w.set (tokenKey t) (.str "1") cfg.refreshTtl).redis =
        KeyValue.get now (tokenKey x) w.redis :=
    fun hne hx hxt now => KeyValue.get_put_ne _ (h.key_ne hx ht hxt htt hne) _ _
  refine ⟨h.ids, h.subs, h.jtis, fun x hx => ?_, fun x hx hxt => ?_, by simp,
    fun x hx now hnow => ?_, fun x hx ho _ => ?_⟩
  · simp only [List.mem_append, List.mem_singleton, Event.issued.injEq, reduceCtorEq,
      or_false] at hx
    exact h.signed x (hx.imp id fun hx => by rw [hx])
  · have hl := h.logged x hx hxt
    simp only [List.mem_append, List.mem_singleton, Event.issued.injEq]
    exact .inl (hl.imp id fun hl => (Option.some.inj hl).symm)
  · by_cases hxt : x = t
    · -- the key expires no earlier than the token
      subst hxt
      have hin := h.inTime x rfl
      have hlive : (⟨.str "1", if cfg.refreshTtl = 0 then none
          else some (w.now + cfg.refreshTtl * 1000)⟩ : KeyValue.Entry RedisValue).live now = true := by
        split
        · rfl
        · simp only [KeyValue.Entry.live, Option.all_some, decide_eq_true_eq]; omega
      simp only [World.set]
      rw [KeyValue.get_put_self _ _ _ _ hlive]
      simp
    · have hx' := (outstanding_issued.1 hx).resolve_left (Ne.symm hxt)
      obtain ⟨hxi, hxr⟩ := h.signed x (.inl hx'.issued)
      rw [hother hxt hxi hxr]
      exact h.kept x hx' now hnow
  · have hne : x ≠ t := fun he => ho (outstanding_issued.2 (.inl he.symm))
    have ho' : ¬ Outstanding log x := fun hx' => ho (outstanding_issued.2 (.inr hx'))
    have hxl : .issued x ∈ log := by
      simp only [List.mem_append, List.mem_singleton, Event.issued.injEq] at hx
      exact hx.resolve_right hne
    obtain ⟨hxi, hxr⟩ := h.signed x (.inl hxl)
    have hg := h.gone x hxl ho' (by simp)
    simp only [World.lookup] at hg ⊢
    rw [← hg]
    exact hother hne hxi hxr w.now

/-- The `DEL` of `refresh` or `logout`; `e` is what it means. -/
theorem Tallies.del {e : Entry} (h : Tallies cfg w log none none) (ht : t ∈ w.issued)
    (htt : t.type = .refresh) (he : e = .redeemed t ∨ e = .withdrawn t) :
    Tallies cfg (w.del (tokenKey t)) (log ++ [e]) none none := by
  have hout : ∀ {x}, Outstanding (log ++ [e]) x ↔ Outstanding log x ∧ t ≠ x := by
    intro x
    rcases he with rfl | rfl
    · exact outstanding_redeemed
    · exact outstanding_withdrawn
  have hmem : ∀ {x}, .issued x ∈ log ++ [e] ↔ .issued x ∈ log := by
    intro x
    rcases he with rfl | rfl <;> simp
  refine ⟨h.ids, h.subs, h.jtis, fun x hx => h.signed x (hx.imp hmem.1 id),
    fun x hx hxt => (h.logged x hx hxt).imp hmem.2 id, by simp, fun x hx now hnow => ?_,
    fun x hx ho _ => ?_⟩
  · obtain ⟨hx, hne⟩ := hout.1 hx
    obtain ⟨hxi, hxr⟩ := h.signed x (.inl hx.issued)
    have hk := h.key_ne hxi ht hxr htt hne.symm
    simp only [World.del]
    rw [KeyValue.get_del_ne _ hk]
    exact h.kept x hx now hnow
  · by_cases hne : t = x
    · subst hne; exact World.lookup_del_self _ _
    · exact World.lookup_del_none (h.gone x (hmem.1 hx) (fun ho' => ho (hout.2 ⟨ho', hne⟩))
        (by simp)) _

/-- The start of `delByPattern`. -/
theorem Tallies.revoke {u : String} (h : Tallies cfg w log none none) :
    Tallies cfg w (log ++ [.revoked u]) none (some u) := by
  have hmem : ∀ {x : Jwt}, .issued x ∈ log ++ [(.revoked u : Entry)] ↔ .issued x ∈ log := by
    intro x; simp
  refine ⟨h.ids, h.subs, h.jtis, fun x hx => h.signed x (hx.imp hmem.1 id),
    fun x hx hxt => (h.logged x hx hxt).imp hmem.2 id, by simp,
    fun x hx => h.kept x (outstanding_revoked.1 hx).1, fun x hx ho hb => ?_⟩
  refine h.gone x (hmem.1 hx) (fun ho' => ho (outstanding_revoked.2 ⟨ho', ?_⟩)) (by simp)
  exact fun hu => hb (by rw [hu])

/-- A `DEL` of the pipeline. -/
theorem Tallies.delMatching {u k : String} (h : Tallies cfg w log none (some u))
    (hu : plainId u = true) (hout : ∀ x, Outstanding log x → x.sub ≠ u)
    (hk : KeyValue.glob (sessionPattern u) k = true) : Tallies cfg (w.del k) log none (some u) := by
  refine ⟨h.ids, h.subs, h.jtis, h.signed, h.logged, h.inTime, fun x hx now hnow => ?_,
    fun x hx ho hb => World.lookup_del_none (h.gone x hx ho hb) _⟩
  have hne : tokenKey x ≠ k := by
    rintro rfl
    obtain ⟨hxi, -⟩ := h.signed x (.inl hx.issued)
    exact hout x hx (eq_of_glob_refreshKey hu (h.subs x hxi) hk).symm
  simp only [World.del]
  rw [KeyValue.get_del_ne _ hne]
  exact h.kept x hx now hnow

/-- The end of `delByPattern`. -/
theorem Tallies.swept {u : String} (h : Tallies cfg w log none (some u)) (hu : plainId u = true)
    (hc : Sweep.Covers (sessionPattern u) w none) : Tallies cfg w log none none where
  ids := h.ids
  subs := h.subs
  jtis := h.jtis
  signed := h.signed
  logged := h.logged
  inTime := h.inTime
  kept := h.kept
  gone x hx ho _ := by
    by_cases hxu : x.sub = u
    · refine World.exists?_eq_false.1 (hc _ ?_)
      rw [tokenKey, hxu]
      exact glob_refreshKey hu _
    · exact h.gone x hx ho (by simpa using Ne.symm hxu)

end Steps

/-! ## `delByPattern` on behalf of a user -/

/-- What starting the sweep writes down. -/
def sweepEntry (userId : String) : Sweep → List Entry
  | .scan => [.revoked userId]
  | .scanning _ | .deleting _ => []

/-- Whose keys may be there or not while the sweep is at `sweep`. -/
def sweepBut (userId : String) : Sweep → Option String
  | .scan => none
  | .scanning _ | .deleting _ => some userId

structure Revoking (cfg : AppConfig) (w : World) (log : List Entry) (userId : String)
    (sweep : Sweep) : Prop where
  tallies : Tallies cfg w log none (sweepBut userId sweep)
  plain : plainId userId = true
  covers : Sweep.Covers (sessionPattern userId) w (some sweep)
  within : Sweep.Within (sessionPattern userId) sweep
  revoked : sweep ≠ .scan → ∀ t, Outstanding log t → t.sub ≠ userId

theorem Tallies.revoking {cfg : AppConfig} {w : World} {log : List Entry} {userId : String}
    (h : Tallies cfg w log none none) (hu : plainId userId = true) :
    Revoking cfg w log userId .scan := ⟨h, hu, trivial, trivial, fun h => absurd rfl h⟩

theorem Revoking.step {cfg : AppConfig} {c : Choice} {w w' : World} {log : List Entry}
    {userId : String} {sweep : Sweep} {n : Option Sweep} (h : Revoking cfg w log userId sweep)
    (hs : sweepStep c (sessionPattern userId) w sweep = some (w', n)) :
    (∀ sweep' ∈ n, Revoking cfg w' (log ++ sweepEntry userId sweep) userId sweep') ∧
      (n = none → Tallies cfg w' (log ++ sweepEntry userId sweep) none none) := by
  obtain ⟨hw, hn, hscan⟩ := h.within.step hs
  have hcov := h.covers.step hs
  -- what holds whenever the sweep has been started
  have hstarted : Tallies cfg w' (log ++ sweepEntry userId sweep) none (some userId) ∧
      ∀ t, Outstanding (log ++ sweepEntry userId sweep) t → t.sub ≠ userId := by
    cases sweep with
    | scan =>
      obtain ⟨rfl, -⟩ := hscan rfl
      exact ⟨Tallies.revoke h.tallies, fun t ht => (outstanding_revoked.1 ht).2.symm⟩
    | scanning keys | deleting keys =>
      have hrev := h.revoked (by simp)
      have hk : Tallies cfg w log none (some userId) := h.tallies
      simp only [sweepEntry, List.append_nil]
      rcases hw with rfl | ⟨k, hk', rfl⟩
      · exact ⟨hk, hrev⟩
      · exact ⟨hk.delMatching h.plain hrev hk', hrev⟩
  refine ⟨fun sweep' hsw => ?_, fun hnone => ?_⟩
  · obtain ⟨hne, hwithin⟩ := hn sweep' hsw
    cases hsw
    refine ⟨?_, h.plain, hcov, hwithin, fun _ => hstarted.2⟩
    cases sweep' with
    | scan => exact absurd rfl hne
    | scanning _ | deleting _ => exact hstarted.1
  · subst hnone
    exact hstarted.1.swept h.plain hcov

/-! ## One call -/

/-- The token a call presents. -/
def token : Calls → Option Jwt
  | .inl (.refresh t) | .inl (.logout t) => some t
  | _ => none

/-- What holds of a call about to do an action. -/
def InCall (cfg : AppConfig) (call : Calls) (w : World) (log : List Entry) : Pcs → Prop
  | .inl (.profile user) => Tallies cfg w log none none ∧ plainId user.id = true
  | .inl (.sign userId _) => Tallies cfg w log none none ∧ plainId userId = true
  | .inl (.store userId tokens _) =>
    Tallies cfg w log (some tokens.refreshToken) none ∧ tokens.refreshToken.sub = userId
  | .inl .existsKey | .inl .user | .inl .del =>
    Tallies cfg w log none none ∧ ∀ t, token call = some t → t ∈ w.issued ∧ t.type = .refresh
  | .inl (.revoke sweep _) => ∀ t, token call = some t → Revoking cfg w log t.sub sweep
  | .inr (.suspend _ user) => Tallies cfg w log none none ∧ plainId user.id = true
  | .inr (.revoke _ userId sweep) => Revoking cfg w log userId sweep
  | _ => Tallies cfg w log none none

section Call
variable {cfg : AppConfig} {c : Choice} {w w' : World} {log : List Entry}

theorem plainId_of_acts {call : Auth.Call} {pc pc' : Auth.Pc}
    (h : Auth.Acts cfg c w call pc w' pc') (hw : ∀ p ∈ userKeys w, plainId p.1 = true) :
    ∀ p ∈ userKeys w', plainId p.1 = true := by
  intro p hp
  rcases h.tables with ⟨hu, -⟩ | ⟨_, _, _, -, -, -, he⟩
  · exact hw p (by simpa [userKeys, hu] using hp)
  · rcases he.new p hp with hp | ⟨hc, -⟩
    · exact hw p hp
    · exact plainId_of_isCuid hc

/-- `logout` deletes the key of a verified token only. -/
theorem logout_verified {t : Jwt}
    (hs : Auth.step cfg c (.logout t) w .verify = some (w', .del)) : Verifies cfg w t := by
  simp only [Auth.step, sharedStep, logoutStep, Option.some.injEq, Prod.mk.injEq] at hs
  obtain ⟨-, hpc⟩ := hs
  split at hpc
  · rename_i hv
    simp only [Bool.and_eq_true, decide_eq_true_eq] at hv
    exact hv
  · cases hpc

theorem InCall.authStep {log' : List Entry} {call : Auth.Call} {pc pc' : Auth.Pc}
    (h : InCall cfg (.inl call) w log (.inl pc))
    (hs : Auth.step cfg c call w pc = some (w', pc'))
    (hlog : log' = log ++ (sessionEvent (.inl call) (.inl pc)).toList) :
    InCall cfg (.inl call) w' log' (.inl pc') := by
  have hacts := Auth.acts_of_step hs
  have hids := fun hk => plainId_of_acts hacts hk
  have silent : sessionEvent (.inl call) (.inl pc) = none → log' = log :=
    fun he => by rw [hlog, he]; simp
  cases hacts with
  | unlisted | blocked | listed | unverified | logoutIgnored => rw [silent rfl]; exact h
  | record hu =>
    obtain ⟨t, rfl⟩ := upsertAccessRequest_world hu
    rw [silent rfl]
    exact Tallies.mono h rfl rfl le_rfl (hids h.ids)
  | @enroll info row w' u he =>
    have hk : Tallies cfg w log none none := h
    have hids' := hids hk.ids
    rw [silent rfl]
    rcases enrolled_of_enroll he with ⟨u', hu, hen⟩ | ⟨⟨_, hu⟩, -⟩
    · cases hu
      obtain ⟨t, t', rfl⟩ := enroll_world he
      exact ⟨hk.mono rfl rfl le_rfl hids', hids' _ hen.mine⟩
    · cases hu
  | enrollFailed he =>
    obtain ⟨t, t', rfl⟩ := enroll_world he
    rw [silent rfl]
    exact Tallies.mono h rfl rfl le_rfl (hids h.ids)
  | profile => rw [silent rfl]; exact h
  | sign hf => rw [silent rfl]; exact ⟨h.1.sign h.2 hf, rfl⟩
  | @store call userId tokens caller =>
    obtain ⟨hk, rfl⟩ := h
    rw [hlog]
    exact hk.store
  | @verified token hv ht =>
    rw [silent rfl]
    refine ⟨h, fun t ht' => ?_⟩
    cases ht'
    exact ⟨Verifies.issued ⟨hv, ht⟩, ht⟩
  | known | active => rw [silent rfl]; exact h
  | @unknown token | @inactive token =>
    rw [silent rfl]
    refine fun t ht => ?_
    cases ht
    have hk : Tallies cfg w log none none := h.1
    exact hk.revoking (hk.subs _ (h.2 _ rfl).1)
  | @del token =>
    obtain ⟨ht, htt⟩ := h.2 _ rfl
    rw [hlog]
    exact ⟨h.1.del ht htt (.inl rfl), h.1.subs _ ht⟩
  | @sweep token sw sw' e w' hsw =>
    have hstep := ((h token rfl).step hsw).1 sw' rfl
    intro t ht
    cases ht
    cases sw <;> (rw [hlog]; exact hstep)
  | @swept token sw e w' hsw =>
    have hstep := ((h token rfl).step hsw).2 rfl
    cases sw <;> (rw [hlog]; exact hstep)
  | @logoutVerified token =>
    rw [silent rfl]
    refine ⟨h, fun t ht => ?_⟩
    cases ht
    have hv := logout_verified hs
    exact ⟨hv.issued, hv.2⟩
  | @logout token =>
    obtain ⟨ht, htt⟩ := h.2 _ rfl
    rw [hlog]
    exact h.1.del ht htt (.inr rfl)

theorem InCall.adminStep {log' : List Entry} {id : String} {dto : UpdateWhitelistDto} {pc pc' : Pc}
    (h : InCall cfg (.inr (.update id dto)) w log (.inr pc))
    (hs : step c (.update id dto) w pc = some (w', pc'))
    (hlog : log' = log ++ (sessionEvent (.inr (.update id dto)) (.inr pc)).toList) :
    InCall cfg (.inr (.update id dto)) w' log' (.inr pc') := by
  have hacts := acts_of_step hs
  have hids : (∀ p ∈ userKeys w, plainId p.1 = true) → ∀ p ∈ userKeys w', plainId p.1 = true :=
    fun hk => by rw [hacts.keys.1]; exact hk
  have silent : sessionEvent (.inr (.update id dto)) (.inr pc) = none → log' = log :=
    fun he => by rw [hlog, he]; simp
  cases hacts with
  | missing | found | nullStatus | gone | unlinked | suspended | notSuspended | activateNoUser =>
    rw [silent rfl]; exact h
  | @write existing row hf =>
    have hk : Tallies cfg w log none none := h
    have hk' : Tallies cfg { w with db.whitelist := updateWhitelist w.db.whitelist id dto } log
      none none := hk.mono rfl rfl le_rfl (hids hk.ids)
    rw [silent rfl]
    simp only [afterWrite]
    split
    · exact hk'
    · split <;> exact hk'
    · split <;> exact hk'
    · exact hk'
  | linked hf =>
    have hk : Tallies cfg w log none none := h
    rw [silent rfl]
    exact ⟨hk, hk.ids _ (mem_userKeys.2 ⟨_, (Table.find_some hf).1, rfl, rfl⟩)⟩
  | @suspend updated user =>
    have hk' : Tallies cfg { w with
        db.users := setUserStatus w.db.users (·.id == user.id) .SUSPENDED } log none none :=
      h.1.mono rfl rfl le_rfl (hids h.1.ids)
    rw [silent rfl]
    exact hk'.revoking h.2
  | noUser => rw [silent rfl]; exact h.1
  | @sweep updated userId sw sw' w' hsw =>
    have hstep := (Revoking.step h hsw).1 sw' rfl
    cases sw <;> (rw [hlog]; exact hstep)
  | @swept updated userId sw w' hsw =>
    have hstep := (Revoking.step h hsw).2 rfl
    have hmono : Tallies cfg (w'.emit (.sessionRevoked userId)) (log ++ sweepEntry userId sw)
      none none := hstep.mono rfl rfl le_rfl hstep.ids
    cases sw <;> (rw [hlog]; exact hmono)
  | activate =>
    have hk : Tallies cfg w log none none := h
    rw [silent rfl]
    exact hk.mono rfl rfl le_rfl (hids hk.ids)

theorem InCall.step {log' : List Entry} {call : Calls} {pc pc' : Pcs}
    (h : InCall cfg call w log pc)
    (hs : (sessions cfg).step c call (w, log) pc = some ((w', log'), pc')) :
    InCall cfg call w' log' pc' := by
  obtain ⟨hs, hlog⟩ := Machine.logged_step.1 hs
  rcases Machine.sum_step hs with ⟨call₁, l, l', rfl, rfl, rfl, hstep⟩ |
    ⟨⟨id, dto⟩, l, l', rfl, rfl, rfl, hstep⟩
  · exact h.authStep hstep hlog
  · exact h.adminStep hstep hlog

theorem Revoking.tick {userId : String} {sweep : Sweep} (h : Revoking cfg w log userId sweep)
    (ms : Nat) : Revoking cfg (w.tick ms) log userId sweep where
  tallies := h.tallies.tick ms
  plain := h.plain
  covers := h.covers.mono fun key _ he => by
    by_contra hno
    have hn := World.lookup_tick_none (World.exists?_eq_false.1 (by simpa using hno)) ms
    rw [World.exists?_eq_false.2 hn] at he
    cases he
  within := h.within
  revoked := h.revoked

theorem InCall.tick {call : Calls} {pc : Pcs} (h : InCall cfg call w log pc) (ms : Nat) :
    InCall cfg call (w.tick ms) log pc := by
  unfold InCall at h ⊢
  split <;> simp only at h
  case h_7 => exact fun t ht => (h t ht).tick ms
  case h_9 => exact Revoking.tick h ms
  case h_10 => exact Tallies.tick h ms
  all_goals exact ⟨Tallies.tick h.1 ms, h.2⟩

/-! ## Any sequence of calls -/

theorem inCall_start (call : Calls) (h : Tallies cfg w log none none) :
    InCall cfg call w log ((sessions cfg).start call) := by
  rcases call with call | call
  · cases call <;> exact h
  · exact h

theorem InCall.of_finished {call : Calls} {pc : Pcs} (h : InCall cfg call w log pc)
    (hf : finished pc = true) : Tallies cfg w log none none := by
  rcases pc with pc | pc <;> cases pc <;> simp [finished] at hf <;> exact h

theorem InCall.solo {call : Calls} {s s' : World × List Entry} {pc pc' : Pcs}
    (h : InCall cfg call s.1 s.2 pc) (hsolo : Solo (sessions cfg) call s pc s' pc') :
    InCall cfg call s'.1 s'.2 pc' :=
  hsolo.invariant (fun s pc => InCall cfg call s.1 s.2 pc) h
    (fun h hs => InCall.step h hs) (fun ms _ _ h => InCall.tick h ms)

/-- A sequence of complete calls from the time before the first token. -/
abbrev Serves (cfg : AppConfig) (w₀ : World) : World × List Entry → Prop :=
  Serial (sessions cfg) (finished · = true) (fun _ _ => True) (w₀, [])

theorem tallies_of_serial {w₀ : World} {s : World × List Entry} (h : Serves cfg w₀ s)
    (hissued : w₀.issued = []) (hids : ∀ u ∈ w₀.db.users.rows, plainId u.id = true) :
    Tallies cfg s.1 s.2 none none := by
  refine h.invariant (fun s => Tallies cfg s.1 s.2 none none) ?_
    (fun hk _ hsolo hf => ((inCall_start _ hk).solo hsolo).of_finished hf)
    (fun ms _ hk => Tallies.tick hk ms)
  refine ⟨fun p hp => ?_, by simp [hissued], by simp [hissued], by simp, by simp [hissued],
    by simp, fun t ht => absurd ht not_outstanding_nil, by simp⟩
  obtain ⟨u, hu, hid, -⟩ := mem_userKeys.1 hp
  exact hid ▸ hids u hu

end Call

end Intaktok.Admin
