import Intaktok.DelByPattern
import Intaktok.Lib.Interleave
/-
# `AuthService` cut at its await points

| here | there |
| --- | --- |
| `refreshKey`, `sessionPattern` | `refreshKey` (`auth.service.ts:38`), the pattern of `revokeAllSessions` (`:187`) and `enforceBlock` (`admin.service.ts:93`) |
| `Call.kakaoLogin`, `Pc.whitelist` … `Pc.profile` | `kakaoLogin` (`auth.service.ts:43`) from the moment Kakao has named the person |
| `Pc.recordRequest` | `recordAccessRequest` (`:98`) |
| `Pc.sign`, `Pc.store` | `issueTokens` (`:121`) |
| `Pc.verify` … `Pc.revoke` | `refresh` (`:142`) and `revokeAllSessions` (`:186`) |
| `Call.logout`, `Pc.verify`, `Pc.del` | `logout` (`:173`) |

A `Pc` is the action the call performs next; the code between two awaits runs with the action it
follows.
-/

namespace Intaktok.Auth

open Interleave Tables

def refreshKey (userId jti : String) : String := "refresh:" ++ userId ++ ":" ++ jti

def sessionPattern (userId : String) : String := "refresh:" ++ userId ++ ":*"

/-! ## Calls and results -/

structure KakaoUserInfo where
  kakaoId : String
  nickname : Option String := none
  profileImageUrl : Option String := none
deriving DecidableEq, Repr

structure TokenPair where
  accessToken : Jwt
  refreshToken : Jwt
deriving DecidableEq, Repr

inductive Call where
  | kakaoLogin (info : KakaoUserInfo)
  | refresh (token : Jwt)
  | logout (token : Jwt)
deriving DecidableEq, Repr

inductive Result where
  | login (tokens : TokenPair) (userId kakaoId : String) (isOnboarded : Bool)
  | tokens (tokens : TokenPair)
  | void
deriving DecidableEq, Repr

/-- Who `issueTokens` returns to: `kakaoLogin` with the user and `isOnboarded`, or `refresh`. -/
inductive Caller where
  | kakaoLogin (user : User) (isOnboarded : Bool)
  | refresh
deriving DecidableEq, Repr

def Caller.result (tokens : TokenPair) : Caller → Result
  | .kakaoLogin user isOnboarded => .login tokens user.id user.kakaoId isOnboarded
  | .refresh => .tokens tokens

inductive Pc where
  | whitelist
  | recordRequest
  | enroll (whitelist : Whitelist)
  | profile (user : User)
  | sign (userId : String) (caller : Caller)
  | store (userId : String) (tokens : TokenPair) (caller : Caller)
  | verify
  | existsKey
  | user
  | del
  | revoke (sweep : Sweep) (e : AppException)
  | done (r : Except Failure Result)

def fail (e : AppException) : Pc := .done (.error (.app e))

/-! ## Database actions -/

/-- `accessRequest.upsert`; `id` is the cuid of a new row. -/
def upsertAccessRequest (w : World) (info : KakaoUserInfo) (id : String) : Option World :=
  let t := w.db.accessRequests
  match t.find (·.kakaoId == info.kakaoId) with
  | some _ =>
    let t' := t.updateWhere (·.kakaoId == info.kakaoId)
      (fun r => { r with
        attempts := r.attempts + 1
        nickname := info.nickname
        profileImageUrl := info.profileImageUrl })
      (fun c _ _ => by cases c <;> rfl)
    some { w with db.accessRequests := t' }
  | none =>
    match t.insert ⟨id, info.kakaoId, info.nickname, info.profileImageUrl, 1, w.now⟩ with
    | .ok t => some { w with db.accessRequests := t }
    | .error _ => none

def setUserStatus (t : Table User) (p : User → Bool) (status : UserStatus) : Table User :=
  t.updateWhere p (fun u => { u with status := status }) (fun c _ _ => by cases c <;> rfl)

def setWhitelistStatus (t : Table Whitelist) (id : String) (status : WhitelistStatus) :
    Table Whitelist :=
  t.updateWhere (·.id == id) (fun r => { r with status := status })
    (fun c _ _ => by cases c <;> rfl)

theorem mem_setUserStatus {t : Table User} {p : User → Bool} {status : UserStatus} {x : User} :
    x ∈ (setUserStatus t p status).rows ↔
      ∃ u ∈ t.rows, (if p u then { u with status := status } else u) = x := by
  rw [setUserStatus, Table.mem_updateWhere]

theorem mem_setWhitelistStatus {t : Table Whitelist} {id : String} {status : WhitelistStatus}
    {x : Whitelist} : x ∈ (setWhitelistStatus t id status).rows ↔
      ∃ r ∈ t.rows, (if r.id == id then { r with status := status } else r) = x := by
  rw [setWhitelistStatus, Table.mem_updateWhere]

/-- `tx.user.upsert`; `id` is the cuid of a new row. -/
def upsertUser (w : World) (kakaoId id : String) : Option (World × User) :=
  match w.db.users.find (·.kakaoId == kakaoId) with
  | some u => some ({ w with db.users := setUserStatus w.db.users (·.kakaoId == kakaoId) .ACTIVE },
      { u with status := .ACTIVE })
  | none =>
    match w.db.users.insert ⟨id, kakaoId, .ACTIVE⟩ with
    | .ok t => if isCuid id then some ({ w with db.users := t }, ⟨id, kakaoId, .ACTIVE⟩) else none
    | .error _ => none

/-- The `$transaction` of `kakaoLogin`: all of it or, when the whitelist row has gone, nothing. -/
def enroll (w : World) (info : KakaoUserInfo) (whitelist : Whitelist) (id : String) :
    Option (World × Except Failure User) :=
  match upsertUser w info.kakaoId id with
  | none => none
  | some (w', u) =>
    if whitelist.status = .INVITED then
      if w.db.whitelist.rows.any (·.id == whitelist.id) then
        some ({ w' with db.whitelist := setWhitelistStatus w'.db.whitelist whitelist.id .ACTIVE },
          .ok u)
      else some (w, .error .recordNotFound)
    else some (w', .ok u)

/-! ## `issueTokens` -/

/-- A `uuidv4()` that has not been drawn before. -/
def freshJti (w : World) (jti : String) : Bool :=
  jti != "" && isUuid jti && !w.issued.any (·.jti == jti)

def signTokens (cfg : AppConfig) (w : World) (userId jti : String) : TokenPair where
  accessToken := ⟨cfg.accessSecret, userId, .access, "", w.now / 1000 + cfg.accessTtl⟩
  refreshToken := ⟨cfg.refreshSecret, userId, .refresh, jti, w.now / 1000 + cfg.refreshTtl⟩

/-! ## The machine -/

def start : Call → Pc
  | .kakaoLogin _ => .whitelist
  | .refresh _ => .verify
  | .logout _ => .verify

def loginStep (c : Choice) (info : KakaoUserInfo) (w : World) : Pc → Option (World × Pc)
  | .whitelist =>
    match w.db.whitelist.find (·.kakaoId == some info.kakaoId) with
    | none => some (w, .recordRequest)
    | some row => some (w, if row.status = .BLOCKED then fail Errors.notAllowed else .enroll row)
  | .recordRequest => (upsertAccessRequest w info c.id).map fun w' => (w', fail Errors.notAllowed)
  | .enroll row => (enroll w info row c.id).map fun
    | (w', .ok u) => (w', .profile u)
    | (w', .error e) => (w', .done (.error e))
  | .profile u =>
    let profile := w.db.profiles.find (·.userId == u.id)
    some (w, .sign u.id (.kakaoLogin u (profile.any (·.onboardedAt.isSome))))
  | _ => none

def refreshStep (cfg : AppConfig) (token : Jwt) (w : World) : Pc → Option (World × Pc)
  | .verify =>
    some (w,
      if !w.verifyAsync token cfg.refreshSecret then
        fail (Errors.unauthorized "유효하지 않은 리프레시 토큰입니다.")
      else if token.type ≠ .refresh then fail Errors.unauthorized
      else .existsKey)
  | .existsKey =>
    some (w,
      if w.exists? (refreshKey token.sub token.jti) then .user
      else .revoke .scan (Errors.unauthorized "만료되었거나 이미 사용된 리프레시 토큰입니다."))
  | .user =>
    let user := w.db.users.find (·.id == token.sub)
    some (w, if user.any (·.status = .ACTIVE) then .del else .revoke .scan Errors.unauthorized)
  -- the answer of `DEL` is not looked at
  | .del => some (w.del (refreshKey token.sub token.jti), .sign token.sub .refresh)
  | _ => none

def logoutStep (cfg : AppConfig) (token : Jwt) (w : World) : Pc → Option (World × Pc)
  | .verify =>
    some (w,
      if w.verifyAsync token cfg.refreshSecret && token.type = .refresh then .del
      else .done (.ok .void))
  | .del => some (w.del (refreshKey token.sub token.jti), .done (.ok .void))
  | _ => none

/-- `issueTokens` and `revokeAllSessions`, which several calls share. -/
def sharedStep (cfg : AppConfig) (c : Choice) (call : Call) (w : World) : Pc → Option (World × Pc)
  | .sign userId caller =>
    if freshJti w c.id then
      let tokens := signTokens cfg w userId c.id
      some ({ w with issued := w.issued ++ [tokens.accessToken, tokens.refreshToken] },
        .store userId tokens caller)
    else none
  | .store userId tokens caller =>
    some (w.set (refreshKey userId tokens.refreshToken.jti) (.str "1") cfg.refreshTtl,
      .done (.ok (caller.result tokens)))
  | .revoke sweep e =>
    match call with
    | .refresh token => (sweepStep c (sessionPattern token.sub) w sweep).map fun
      | (w', some sweep') => (w', .revoke sweep' e)
      | (w', none) => (w', fail e)
    | _ => none
  | _ => none

def step (cfg : AppConfig) (c : Choice) (call : Call) (w : World) (pc : Pc) :
    Option (World × Pc) :=
  match sharedStep cfg c call w pc with
  | some r => some r
  | none => match call with
    | .kakaoLogin info => loginStep c info w pc
    | .refresh token => refreshStep cfg token w pc
    | .logout token => logoutStep cfg token w pc

/-- Only time passes by itself. -/
def machine (cfg : AppConfig) : Machine World Call Pc Choice Nat where
  start := start
  step := step cfg
  env := World.tick

/-! ## What one action does -/

theorem upsertAccessRequest_world {w w' : World} {info : KakaoUserInfo} {id : String}
    (h : upsertAccessRequest w info id = some w') :
    ∃ t, w' = { w with db.accessRequests := t } := by
  simp only [upsertAccessRequest] at h
  split at h
  · simp only [Option.some.injEq] at h; exact ⟨_, h.symm⟩
  · split at h
    · simp only [Option.some.injEq] at h; exact ⟨_, h.symm⟩
    · cases h

theorem upsertUser_world {w w' : World} {kakaoId id : String} {u : User}
    (h : upsertUser w kakaoId id = some (w', u)) : ∃ t, w' = { w with db.users := t } := by
  simp only [upsertUser] at h
  split at h
  · simp only [Option.some.injEq, Prod.mk.injEq] at h; exact ⟨_, h.1.symm⟩
  · split at h
    · split at h
      · simp only [Option.some.injEq, Prod.mk.injEq] at h; exact ⟨_, h.1.symm⟩
      · cases h
    · cases h

/-- The transaction touches only the two tables it names. -/
theorem enroll_world {w w' : World} {info : KakaoUserInfo} {row : Whitelist} {id : String}
    {r : Except Failure User} (h : enroll w info row id = some (w', r)) :
    ∃ t t', w' = { w with db.users := t, db.whitelist := t' } := by
  simp only [enroll] at h
  split at h
  · cases h
  · rename_i w₁ u hu
    obtain ⟨t, rfl⟩ := upsertUser_world hu
    split at h
    · split at h
      · simp only [Option.some.injEq, Prod.mk.injEq] at h; exact ⟨_, _, h.1.symm⟩
      · simp only [Option.some.injEq, Prod.mk.injEq] at h; exact ⟨_, _, h.1.symm⟩
    · simp only [Option.some.injEq, Prod.mk.injEq] at h; exact ⟨_, _, h.1.symm⟩

/-- Every action of a call, as a relation. -/
inductive Acts (cfg : AppConfig) (c : Choice) (w : World) : Call → Pc → World → Pc → Prop
  | unlisted {info} : w.db.whitelist.find (·.kakaoId == some info.kakaoId) = none →
      Acts cfg c w (.kakaoLogin info) .whitelist w .recordRequest
  | blocked {info row} : w.db.whitelist.find (·.kakaoId == some info.kakaoId) = some row →
      row.status = .BLOCKED →
      Acts cfg c w (.kakaoLogin info) .whitelist w (fail Errors.notAllowed)
  | listed {info row} : w.db.whitelist.find (·.kakaoId == some info.kakaoId) = some row →
      row.status ≠ .BLOCKED → Acts cfg c w (.kakaoLogin info) .whitelist w (.enroll row)
  | record {info w'} : upsertAccessRequest w info c.id = some w' →
      Acts cfg c w (.kakaoLogin info) .recordRequest w' (fail Errors.notAllowed)
  | enroll {info row w' u} : enroll w info row c.id = some (w', .ok u) →
      Acts cfg c w (.kakaoLogin info) (.enroll row) w' (.profile u)
  | enrollFailed {info row w' e} : Auth.enroll w info row c.id = some (w', .error e) →
      Acts cfg c w (.kakaoLogin info) (.enroll row) w' (.done (.error e))
  | profile {info u} (isOnboarded : Bool) :
      Acts cfg c w (.kakaoLogin info) (.profile u) w (.sign u.id (.kakaoLogin u isOnboarded))
  | sign {call userId caller} : freshJti w c.id = true →
      Acts cfg c w call (.sign userId caller)
        { w with issued := w.issued ++ [(signTokens cfg w userId c.id).accessToken,
                                        (signTokens cfg w userId c.id).refreshToken] }
        (.store userId (signTokens cfg w userId c.id) caller)
  | store {call userId tokens caller} :
      Acts cfg c w call (.store userId tokens caller)
        (w.set (refreshKey userId tokens.refreshToken.jti) (.str "1") cfg.refreshTtl)
        (.done (.ok (caller.result tokens)))
  | verified {token} : w.verifyAsync token cfg.refreshSecret = true → token.type = .refresh →
      Acts cfg c w (.refresh token) .verify w .existsKey
  | unverified {token} (e : AppException) : Acts cfg c w (.refresh token) .verify w (fail e)
  | known {token} : w.exists? (refreshKey token.sub token.jti) = true →
      Acts cfg c w (.refresh token) .existsKey w .user
  | unknown {token} (e : AppException) : w.exists? (refreshKey token.sub token.jti) = false →
      Acts cfg c w (.refresh token) .existsKey w (.revoke .scan e)
  | active {token} : (w.db.users.find (·.id == token.sub)).any (·.status = .ACTIVE) = true →
      Acts cfg c w (.refresh token) .user w .del
  | inactive {token} (e : AppException) : Acts cfg c w (.refresh token) .user w (.revoke .scan e)
  | del {token} : Acts cfg c w (.refresh token) .del
      (w.del (refreshKey token.sub token.jti)) (.sign token.sub .refresh)
  | sweep {token sw sw' e w'} :
      sweepStep c (sessionPattern token.sub) w sw = some (w', some sw') →
      Acts cfg c w (.refresh token) (.revoke sw e) w' (.revoke sw' e)
  | swept {token sw e w'} : sweepStep c (sessionPattern token.sub) w sw = some (w', none) →
      Acts cfg c w (.refresh token) (.revoke sw e) w' (fail e)
  | logoutVerified {token} : Acts cfg c w (.logout token) .verify w .del
  | logoutIgnored {token} : Acts cfg c w (.logout token) .verify w (.done (.ok .void))
  | logout {token} : Acts cfg c w (.logout token) .del
      (w.del (refreshKey token.sub token.jti)) (.done (.ok .void))

/-- One inversion lemma for `step`: whatever a call does is one of the actions above. -/
theorem acts_of_step {cfg : AppConfig} {c : Choice} {call : Call} {w w' : World} {pc pc' : Pc}
    (h : step cfg c call w pc = some (w', pc')) : Acts cfg c w call pc w' pc' := by
  unfold step at h
  split at h
  · rename_i r hr
    cases h
    cases pc <;> simp only [sharedStep, reduceCtorEq] at hr
    case sign userId caller =>
      split at hr
      · rename_i hf; cases hr; exact .sign hf
      · cases hr
    case store userId tokens caller => cases hr; exact .store
    case revoke sw e =>
      cases call <;> simp only [reduceCtorEq, Option.map_eq_some_iff] at hr
      obtain ⟨⟨w₁, n⟩, hs, hr⟩ := hr
      cases n with
      | none => cases hr; exact .swept hs
      | some sw' => cases hr; exact .sweep hs
  · cases call with
    | kakaoLogin info =>
      cases pc <;> simp only [loginStep, reduceCtorEq] at h
      case whitelist =>
        split at h
        · rename_i hf; cases h; exact .unlisted hf
        · rename_i row hf
          split at h
          · rename_i hb; cases h; exact .blocked hf hb
          · rename_i hb; cases h; exact .listed hf hb
      case recordRequest =>
        obtain ⟨w₁, hu, h⟩ := Option.map_eq_some_iff.1 h
        cases h; exact .record hu
      case enroll row =>
        obtain ⟨⟨w₁, r⟩, hu, h⟩ := Option.map_eq_some_iff.1 h
        cases r with
        | ok u => cases h; exact .enroll hu
        | error e => cases h; exact .enrollFailed hu
      case profile u => cases h; exact .profile _
    | refresh token =>
      cases pc <;> simp only [refreshStep, reduceCtorEq] at h
      case verify =>
        cases h
        split
        · exact .unverified _
        · rename_i hv
          split
          · exact .unverified _
          · rename_i ht; exact .verified (by simpa using hv) (by simpa using ht)
      case existsKey =>
        cases h
        split
        · rename_i he; exact .known he
        · rename_i he; exact .unknown _ (by simpa using he)
      case user =>
        cases h
        split
        · rename_i ha; exact .active ha
        · exact .inactive _
      case del => cases h; exact .del
    | logout token =>
      cases pc <;> simp only [logoutStep, reduceCtorEq] at h
      case verify =>
        cases h
        split
        · exact .logoutVerified
        · exact .logoutIgnored
      case del => cases h; exact .logout

/-- No action but the `SET` of its own key makes a key appear. -/
theorem Acts.lookup_none {cfg : AppConfig} {c : Choice} {w w' : World} {call : Call} {pc pc' : Pc}
    (h : Acts cfg c w call pc w' pc') {key : String}
    (hs : ∀ userId tokens caller, pc = .store userId tokens caller →
      refreshKey userId tokens.refreshToken.jti ≠ key)
    (hn : w.lookup key = none) : w'.lookup key = none := by
  cases h with
  | record hu => obtain ⟨t, rfl⟩ := upsertAccessRequest_world hu; exact hn
  | enroll he => obtain ⟨t, t', rfl⟩ := enroll_world he; exact hn
  | enrollFailed he => obtain ⟨t, t', rfl⟩ := enroll_world he; exact hn
  | store => rw [World.lookup_set_ne _ (hs _ _ _ rfl).symm]; exact hn
  | del | logout => exact World.lookup_del_none hn _
  | sweep hsw | swept hsw =>
    rcases sweepStep_world hsw with rfl | ⟨k, rfl⟩
    · exact hn
    · exact World.lookup_del_none hn k
  | _ => exact hn

end Intaktok.Auth
