import Mathlib.Data.Prod.Lex
import Intaktok.Admin.Sessions
/-
# `refresh` accepts what the ledger says

A refresh token is acceptable if it is outstanding and its user is `ACTIVE`. A call of `refresh`
on a token that verifies succeeds exactly if the token is acceptable, and otherwise revokes what
its user holds and nothing else (`refresh_refines`). Time may pass during the call: a token that
verifies at its end has verified throughout.
-/

namespace Intaktok.Admin

open Interleave Tables Auth Ledger

def Active (w : World) (userId : String) : Prop :=
  ∃ u ∈ w.db.users.rows, u.id = userId ∧ u.status = .ACTIVE

structure Acceptable (w : World) (log : List Entry) (t : Jwt) : Prop where
  outstanding : Outstanding log t
  active : Active w t.sub

theorem active_iff {w : World} {userId : String} :
    (w.db.users.find (·.id == userId)).any (·.status = .ACTIVE) = true ↔ Active w userId := by
  simp only [Option.any_eq_true, decide_eq_true_eq]
  constructor
  · rintro ⟨u, hf, hs⟩
    obtain ⟨hu, hid⟩ := Table.find_some hf
    exact ⟨u, hu, by simpa using hid, hs⟩
  · rintro ⟨u, hu, hid, hs⟩
    refine ⟨u, Table.find_eq hu (by simpa using hid) fun x hx hxid => ?_, hs⟩
    exact users_eq_of_id hx hu ((by simpa using hxid : x.id = userId).trans hid.symm)

/-! ## What `refresh` decides -/

section Decides
variable {cfg : AppConfig} {c : Choice} {w w' : World} {t : Jwt} {pc' : Auth.Pc}

theorem verify_decides (h : Auth.step cfg c (.refresh t) w .verify = some (w', pc')) :
    w' = w ∧ (Verifies cfg w t ∧ pc' = .existsKey ∨ ¬ Verifies cfg w t ∧ ∃ e, pc' = fail e) := by
  simp only [Auth.step, sharedStep, refreshStep, Option.some.injEq, Prod.mk.injEq] at h
  obtain ⟨rfl, rfl⟩ := h
  refine ⟨rfl, ?_⟩
  split
  · rename_i hv
    exact .inr ⟨fun hok => by simp [hok.1] at hv, _, rfl⟩
  · rename_i hv
    split
    · rename_i ht
      exact .inr ⟨fun hok => ht hok.2, _, rfl⟩
    · rename_i ht
      exact .inl ⟨⟨by simpa using hv, by simpa using ht⟩, rfl⟩

theorem existsKey_decides (h : Auth.step cfg c (.refresh t) w .existsKey = some (w', pc')) :
    w' = w ∧ (w.lookup (tokenKey t) ≠ none ∧ pc' = .user ∨
      w.lookup (tokenKey t) = none ∧ ∃ e, pc' = .revoke .scan e) := by
  simp only [Auth.step, sharedStep, refreshStep, Option.some.injEq, Prod.mk.injEq] at h
  obtain ⟨rfl, rfl⟩ := h
  refine ⟨rfl, ?_⟩
  split
  · rename_i he
    obtain ⟨v, hv⟩ := World.exists?_eq_true.1 he
    exact .inl ⟨by simp [tokenKey, hv], rfl⟩
  · rename_i he
    exact .inr ⟨World.exists?_eq_false.1 (by simpa [tokenKey] using he), _, rfl⟩

theorem user_decides (h : Auth.step cfg c (.refresh t) w .user = some (w', pc')) :
    w' = w ∧ (Active w t.sub ∧ pc' = .del ∨ ¬ Active w t.sub ∧ ∃ e, pc' = .revoke .scan e) := by
  simp only [Auth.step, sharedStep, refreshStep, Option.some.injEq, Prod.mk.injEq] at h
  obtain ⟨rfl, rfl⟩ := h
  refine ⟨rfl, ?_⟩
  split
  · rename_i ha
    exact .inl ⟨active_iff.1 ha, rfl⟩
  · rename_i ha
    exact .inr ⟨fun hact => ha (active_iff.2 hact), _, rfl⟩

end Decides

/-! ## One call of `refresh` -/

/-- Users, tokens and the clock as a call has found them, but for the time that has passed. -/
structure Since (w₁ w : World) : Prop where
  users : w.db.users = w₁.db.users
  issued : w.issued = w₁.issued
  now : w₁.now ≤ w.now

/-- What a call of `refresh` knows that found `w₁` and the ledger `log₁`. -/
def Tracks (cfg : AppConfig) (t : Jwt) (w₁ : World) (log₁ : List Entry) (w : World)
    (log : List Entry) : Pcs → Prop
  | .inl .verify => Since w₁ w ∧ log = log₁
  | .inl .existsKey => Since w₁ w ∧ log = log₁ ∧ Verifies cfg w₁ t
  | .inl .user => Since w₁ w ∧ log = log₁ ∧ Verifies cfg w₁ t ∧ Outstanding log₁ t
  | .inl .del => log = log₁ ∧ Verifies cfg w₁ t ∧ Acceptable w₁ log₁ t
  | .inl (.sign userId caller) => userId = t.sub ∧ caller = .refresh ∧
    log = log₁ ++ [.redeemed t] ∧ Verifies cfg w₁ t ∧ Acceptable w₁ log₁ t
  | .inl (.store userId tokens caller) => userId = t.sub ∧ caller = .refresh ∧
    log = log₁ ++ [.redeemed t] ∧ Verifies cfg w₁ t ∧ Acceptable w₁ log₁ t ∧
    tokens.refreshToken.sub = t.sub
  | .inl (.revoke sweep _) => Since w₁ w ∧
    (match sweep with
      | .scan => log = log₁
      | .scanning _ | .deleting _ => log = log₁ ++ [.revoked t.sub]) ∧
    (Verifies cfg w t → ¬ Acceptable w₁ log₁ t)
  | .inl (.done (.ok r)) => ∃ tokens, r = .tokens tokens ∧ tokens.refreshToken.sub = t.sub ∧
    log = log₁ ++ [.redeemed t] ++ [.issued tokens.refreshToken] ∧
    Verifies cfg w₁ t ∧ Acceptable w₁ log₁ t
  | .inl (.done (.error _)) => Since w₁ w ∧
    (Verifies cfg w t → ¬ Acceptable w₁ log₁ t ∧ log = log₁ ++ [.revoked t.sub])
  | _ => False

section Track
variable {cfg : AppConfig} {c : Choice} {t : Jwt} {w₁ w w' : World} {log₁ log log' : List Entry}

theorem Since.refl (w : World) : Since w w := ⟨rfl, rfl, le_rfl⟩

theorem Since.tick (h : Since w₁ w) (ms : Nat) : Since w₁ (w.tick ms) :=
  ⟨h.users, h.issued, h.now.trans (Nat.le_add_right _ _)⟩

theorem Since.verifies (h : Since w₁ w) (hv : Verifies cfg w t) : Verifies cfg w₁ t :=
  hv.earlier h.issued h.now

theorem Since.active (h : Since w₁ w) {userId : String} :
    Active w userId ↔ Active w₁ userId := by simp only [Active, h.users]

theorem Verifies.of_tick {ms : Nat} (h : Verifies cfg (w.tick ms) t) : Verifies cfg w t :=
  h.earlier rfl (Nat.le_add_right _ _)

/-- A token whose key is there is outstanding. -/
theorem Tallies.outstanding (h : Tallies cfg w log none none) (ht : t ∈ w.issued)
    (htt : t.type = .refresh) (hl : w.lookup (tokenKey t) ≠ none) : Outstanding log t := by
  by_contra ho
  exact hl (h.gone t ((h.logged t ht htt).resolve_right (by simp)) ho (by simp))

/-- A sweep touches Redis only. -/
theorem Since.sweep {pattern : String} {sw : Sweep} {n : Option Sweep} (h : Since w₁ w)
    (hs : sweepStep c pattern w sw = some (w', n)) : Since w₁ w' := by
  rcases sweepStep_world hs with rfl | ⟨k, rfl⟩
  · exact h
  · exact ⟨h.users, h.issued, h.now⟩

theorem tracks_step {pc pc' : Pcs} (hin : InCall cfg (.inl (.refresh t)) w log pc)
    (h : Tracks cfg t w₁ log₁ w log pc)
    (hs : (sessions cfg).step c (.inl (.refresh t)) (w, log) pc = some ((w', log'), pc')) :
    Tracks cfg t w₁ log₁ w' log' pc' := by
  obtain ⟨hs, hlog⟩ := Machine.logged_step.1 hs
  rcases Machine.sum_step hs with ⟨call, l, l', hc, rfl, rfl, hstep⟩ | ⟨_, _, _, hc, -, -, -⟩
  · cases hc
    have hstep : Auth.step cfg c (.refresh t) w l = some (w', l') := hstep
    have hacts := Auth.acts_of_step hstep
    cases l with
    | verify =>
      obtain ⟨hsince, rfl⟩ := h
      simp only [sessionEvent, Option.toList_none, List.append_nil] at hlog
      obtain ⟨rfl, ⟨hv, rfl⟩ | ⟨hv, e, rfl⟩⟩ := verify_decides hstep
      · exact ⟨hsince, hlog, hsince.verifies hv⟩
      · exact ⟨hsince, fun hv' => absurd hv' hv⟩
    | existsKey =>
      obtain ⟨hsince, rfl, hv₁⟩ := h
      simp only [sessionEvent, Option.toList_none, List.append_nil] at hlog
      have hk : Tallies cfg w log none none := hin.1
      obtain ⟨rfl, ⟨hl, rfl⟩ | ⟨hl, e, rfl⟩⟩ := existsKey_decides hstep
      · exact ⟨hsince, hlog, hv₁, hk.outstanding (hsince.issued ▸ hv₁.issued) hv₁.2 hl⟩
      · exact ⟨hsince, hlog, fun hv ha => hk.kept t ha.outstanding _ hv.lt hl⟩
    | user =>
      obtain ⟨hsince, rfl, hv₁, ho⟩ := h
      simp only [sessionEvent, Option.toList_none, List.append_nil] at hlog
      obtain ⟨rfl, ⟨ha, rfl⟩ | ⟨ha, e, rfl⟩⟩ := user_decides hstep
      · exact ⟨hlog, hv₁, ho, hsince.active.1 ha⟩
      · exact ⟨hsince, hlog, fun _ hacc => ha (hsince.active.2 hacc.active)⟩
    | del =>
      obtain ⟨rfl, hv₁, hacc⟩ := h
      cases hacts
      exact ⟨rfl, rfl, hlog, hv₁, hacc⟩
    | sign userId caller =>
      obtain ⟨rfl, rfl, rfl, hv₁, hacc⟩ := h
      simp only [sessionEvent, Option.toList_none, List.append_nil] at hlog
      cases hacts
      exact ⟨rfl, rfl, hlog, hv₁, hacc, rfl⟩
    | store userId tokens caller =>
      obtain ⟨rfl, rfl, rfl, hv₁, hacc, hsub⟩ := h
      cases hacts
      exact ⟨tokens, rfl, hsub, hlog, hv₁, hacc⟩
    | revoke sw e =>
      obtain ⟨hsince, hl, hno⟩ := h
      -- what the ledger says once the sweep has begun
      have hlog' : log' = log₁ ++ [.revoked t.sub] := by
        rw [hlog]
        cases sw with
        | scan => rw [hl]; rfl
        | scanning _ | deleting _ => rw [hl]; simp [sessionEvent]
      cases hacts with
      | @sweep _ _ sw' _ _ hsw =>
        refine ⟨hsince.sweep hsw, ?_, fun hv => hno (((Since.refl w).sweep hsw).verifies hv)⟩
        cases sw' with
        | scan => exact absurd rfl (((hin t rfl).within.step hsw).2.1 .scan rfl).1
        | scanning _ | deleting _ => exact hlog'
      | swept hsw =>
        exact ⟨hsince.sweep hsw, fun hv => ⟨hno (((Since.refl w).sweep hsw).verifies hv), hlog'⟩⟩
    | done r => cases hacts
    | _ => exact h.elim
  · cases hc

theorem Tracks.tick {pc : Pcs} (h : Tracks cfg t w₁ log₁ w log pc) (ms : Nat) :
    Tracks cfg t w₁ log₁ (w.tick ms) log pc := by
  rcases pc with pc | pc
  · cases pc with
    | verify | existsKey | user => exact ⟨h.1.tick ms, h.2⟩
    | revoke sw e => exact ⟨h.1.tick ms, h.2.1, fun hv => h.2.2 hv.of_tick⟩
    | done r =>
      cases r with
      | ok r => exact h
      | error e => exact ⟨h.1.tick ms, fun hv => h.2 hv.of_tick⟩
    | _ => exact h
  · exact h

end Track

/-- A complete call of `refresh`. -/
def Refreshes (cfg : AppConfig) (t : Jwt) (s s' : World × List Entry)
    (r : Except Failure Auth.Result) : Prop :=
  Solo (sessions cfg) (.inl (.refresh t)) s (.inl .verify) s' (.inl (.done r))

theorem tracks_of_refreshes {cfg : AppConfig} {t : Jwt} {w w' : World} {log log' : List Entry}
    {r : Except Failure Auth.Result} (hk : Tallies cfg w log none none)
    (h : Refreshes cfg t (w, log) (w', log') r) : Tracks cfg t w log w' log' (.inl (.done r)) := by
  have hboth := h.invariant
    (fun s pc => InCall cfg (.inl (.refresh t)) s.1 s.2 pc ∧ Tracks cfg t w log s.1 s.2 pc)
    ⟨inCall_start (.inl (.refresh t)) hk, Since.refl w, rfl⟩
    (fun hI hs => ⟨hI.1.step hs, tracks_step hI.1 hI.2 hs⟩)
    (fun ms _ _ hI => ⟨hI.1.tick ms, hI.2.tick ms⟩)
  exact hboth.2

/-! ## Every call comes to its end -/

/-- How far a call of `refresh` is from its end: the stage, and the keys it has still to delete. -/
def remaining : Pcs → Nat ×ₗ Nat
  | .inl .verify => toLex (8, 0)
  | .inl .existsKey => toLex (7, 0)
  | .inl .user => toLex (6, 0)
  | .inl .del => toLex (5, 0)
  | .inl (.sign _ _) => toLex (4, 0)
  | .inl (.store _ _ _) | .inl (.revoke .scan _) => toLex (3, 0)
  | .inl (.revoke (.scanning _) _) => toLex (2, 0)
  | .inl (.revoke (.deleting keys) _) => toLex (1, keys.length)
  | _ => toLex (0, 0)

/-- Where a call of `refresh` can be; what it has found matches its pattern. -/
def OfRefresh (t : Jwt) : Pcs → Prop
  | .inl .verify | .inl .existsKey | .inl .user | .inl .del | .inl (.sign _ _)
  | .inl (.store _ _ _) | .inl (.done _) => True
  | .inl (.revoke sweep _) => Sweep.Within (sessionPattern t.sub) sweep
  | _ => False

theorem exists_freshJti (w : World) : ∃ jti, freshJti w jti = true := by
  obtain ⟨jti, hne, hid, hnew⟩ := exists_cuid (w.issued.map Jwt.jti)
  refine ⟨jti, ?_⟩
  simp only [freshJti, Bool.and_eq_true, bne_iff_ne, ne_eq, Bool.not_eq_true', List.any_eq_false,
    beq_iff_eq]
  refine ⟨⟨hne, List.all_eq_true.2 fun c hc => ?_⟩, fun x hx hj => ?_⟩
  · simp [List.all_eq_true.1 hid c hc]
  · exact hnew (List.mem_map.2 ⟨x, hx, hj⟩)

theorem exists_sweepStep {pattern : String} {sw : Sweep} (h : Sweep.Within pattern sw)
    (w : World) : ∃ c w' n, sweepStep c pattern w sw = some (w', n) ∧
      ∀ sw' ∈ n, ∀ e, remaining (.inl (.revoke sw' e)) < remaining (.inl (.revoke sw e)) := by
  cases sw with
  | scan =>
    refine ⟨{}, w, _, rfl, ?_⟩
    rintro sw' hsw e
    cases hsw
    simp [remaining, Prod.Lex.toLex_lt_toLex]
  | scanning atStart =>
    refine ⟨{ keys := atStart }, w, if atStart.isEmpty then none else some (.deleting atStart),
      ?_, fun sw' hsw e => ?_⟩
    · simp only [sweepStep]
      rw [if_pos]
      simp only [Bool.and_eq_true, List.all_eq_true, Bool.or_eq_true]
      exact ⟨fun k hk => .inr (by simpa using hk), h⟩
    · split at hsw
      · cases hsw
      · cases hsw; simp [remaining, Prod.Lex.toLex_lt_toLex]
  | deleting keys =>
    cases keys with
    | nil => exact ⟨{}, w, none, rfl, by simp⟩
    | cons k ks =>
      refine ⟨{}, w.del k, _, rfl, fun sw' hsw e => ?_⟩
      split at hsw
      · cases hsw
      · cases hsw; simp [remaining, Prod.Lex.toLex_lt_toLex]

theorem exists_refreshStep (cfg : AppConfig) {t : Jwt} {pc : Pcs} (h : OfRefresh t pc)
    (w : World) : (∃ r, pc = .inl (.done r)) ∨
      ∃ c w' pc', (system cfg).step c (.inl (.refresh t)) w pc = some (w', pc') ∧
        OfRefresh t pc' ∧ remaining pc' < remaining pc := by
  have lift : ∀ {c l w' l'}, Auth.step cfg c (.refresh t) w l = some (w', l') →
      (system cfg).step c (.inl (.refresh t)) w (.inl l) = some (w', .inl l') := fun hs =>
    Option.map_eq_some_iff.2 ⟨_, hs, rfl⟩
  rcases pc with l | l
  · cases l with
    | done r => exact .inl ⟨r, rfl⟩
    | verify =>
      refine .inr ⟨{}, w, _, lift rfl, ?_⟩
      split
      · exact ⟨trivial, by simp [remaining, fail, Prod.Lex.toLex_lt_toLex]⟩
      · split
        · exact ⟨trivial, by simp [remaining, fail, Prod.Lex.toLex_lt_toLex]⟩
        · exact ⟨trivial, by simp [remaining, Prod.Lex.toLex_lt_toLex]⟩
    | existsKey | user =>
      refine .inr ⟨{}, w, _, lift rfl, ?_⟩
      split
      · exact ⟨trivial, by simp [remaining, Prod.Lex.toLex_lt_toLex]⟩
      · exact ⟨trivial, by simp [remaining, Prod.Lex.toLex_lt_toLex]⟩
    | del => exact .inr ⟨{}, _, _, lift rfl, trivial, by simp [remaining, Prod.Lex.toLex_lt_toLex]⟩
    | sign userId caller =>
      obtain ⟨jti, hj⟩ := exists_freshJti w
      refine .inr ⟨{ id := jti }, { w with issued := w.issued ++ [(signTokens cfg w userId
        jti).accessToken, (signTokens cfg w userId jti).refreshToken] },
        .inl (.store userId (signTokens cfg w userId jti) caller), lift ?_, trivial, ?_⟩
      · simp only [Auth.step, sharedStep, hj, if_true]
      · simp [remaining, Prod.Lex.toLex_lt_toLex]
    | store userId tokens caller =>
      exact .inr ⟨{}, _, _, lift rfl, trivial, by simp [remaining, Prod.Lex.toLex_lt_toLex]⟩
    | revoke sw e =>
      obtain ⟨c, w', n, hsw, hlt⟩ := exists_sweepStep h w
      cases n with
      | none =>
        refine .inr ⟨c, w', .inl (fail e), lift ?_, trivial, ?_⟩
        · simp only [Auth.step, sharedStep, hsw]; rfl
        · cases sw <;> simp [remaining, fail, Prod.Lex.toLex_lt_toLex]
      | some sw' =>
        refine .inr ⟨c, w', .inl (.revoke sw' e), lift ?_, ?_, hlt sw' rfl e⟩
        · simp only [Auth.step, sharedStep, hsw]; rfl
        · exact ((Sweep.Within.step h hsw).2.1 sw' rfl).2
    | _ => exact h.elim
  · exact h.elim

/-- `refresh` waits for nothing but its own awaits. -/
theorem refresh_completes (cfg : AppConfig) (t : Jwt) (s : World × List Entry) :
    ∃ s' r, Refreshes cfg t s s' r := by
  have hstep : ∀ {s : World × List Entry} {pc : Pcs}, OfRefresh t pc →
      (∃ r, pc = .inl (.done r)) ∨ ∃ c s' pc',
        (sessions cfg).step c (.inl (.refresh t)) s pc = some (s', pc') ∧ OfRefresh t pc' ∧
          remaining pc' < remaining pc := by
    rintro ⟨w, log⟩ pc hpc
    refine (exists_refreshStep cfg hpc w).imp id ?_
    rintro ⟨c, w', pc', hs, hof, hlt⟩
    exact ⟨c, (w', _), pc', Machine.logged_step.2 ⟨hs, rfl⟩, hof, hlt⟩
  obtain ⟨s', _, hsolo, r, rfl⟩ := Solo.completes (fun _ pc => OfRefresh t pc) _ remaining
    hstep (s := s) (l := .inl .verify) trivial
  exact ⟨s', r, hsolo⟩

/-! ## The refinement -/

/-- **Refresh sessions.** After any sequence of complete logins, refreshes, logouts and admin
operations a call of `refresh` comes to its end, and however long it takes: it succeeds only with a
token that verifies and is acceptable, which it redeems for a new one; it does succeed with such a
token, unless that runs out on the way; and a token that verifies without being acceptable costs
its user every outstanding token, and no other user any. -/
theorem refresh_refines (cfg : AppConfig) {w₀ : World} (hissued : w₀.issued = [])
    (hids : ∀ u ∈ w₀.db.users.rows, plainId u.id = true) {w : World} {log : List Entry}
    (hrun : Serves cfg w₀ (w, log)) (t : Jwt) :
    (∃ s' r, Refreshes cfg t (w, log) s' r) ∧
    ∀ w' log' r, Refreshes cfg t (w, log) (w', log') r →
      (r.isOk = true → Verifies cfg w t ∧ Acceptable w log t ∧
        ∃ new, new.sub = t.sub ∧ log' = log ++ [.redeemed t] ++ [.issued new]) ∧
      (Verifies cfg w' t → Acceptable w log t → r.isOk = true) ∧
      (Verifies cfg w' t → ¬ Acceptable w log t → r.isOk = false ∧
        ∀ s, Outstanding log' s ↔ Outstanding log s ∧ s.sub ≠ t.sub) := by
  refine ⟨refresh_completes cfg t _, fun w' log' r hr => ?_⟩
  have htr := tracks_of_refreshes (tallies_of_serial hrun hissued hids) hr
  cases r with
  | ok res =>
    obtain ⟨tokens, -, hsub, hlog, hv, hacc⟩ := htr
    exact ⟨fun _ => ⟨hv, hacc, tokens.refreshToken, hsub, hlog⟩, fun _ _ => rfl,
      fun _ hno => absurd hacc hno⟩
  | error e =>
    obtain ⟨-, hno⟩ := htr
    refine ⟨fun hok => (nomatch hok), fun hv hacc => absurd hacc (hno hv).1,
      fun hv _ => ⟨rfl, ?_⟩⟩
    rw [(hno hv).2]
    intro s
    rw [Outstanding, outstanding_revoked, ne_comm]
    rfl

/-- The refresh token of the first login of `u1`, with the jti `j1`. -/
def tokenJ1 : Jwt := ⟨"change-me-refresh", "u1", .refresh, "j1", 2592000⟩

def accepted : Pcs → Bool
  | .inl (.done (.ok _)) => true
  | _ => false

/-- The login of `u1`, alone. -/
def loginAlone : List (Move Unit Choice Nat) :=
  [.step () {}, .step () {}, .step () {}, .step () { id := "j1" }, .step () {}]

/-- A refresh alone, half an hour later. -/
def refreshAlone : List (Move Unit Choice Nat) :=
  [.env 1800000, .step () {}, .step () {}, .step () {}, .step () {}, .step () { id := "j2" },
    .step () {}]

/-- `u1` logs in, and half an hour later refreshes. -/
theorem refresh_refines_u1 : ∃ w log, Serves {} (worldK1 .ACTIVE) (w, log) ∧
    ∃ s' r, Refreshes {} tokenJ1 (w, log) s' r ∧ r.isOk = true ∧ Outstanding log tokenJ1 := by
  have hexec : ((sessions {}).serve finished (fun _ _ => true) (worldK1 .ACTIVE, [])
      [(.inl (.kakaoLogin { kakaoId := "k1" }), loginAlone)]).any (fun s =>
        ((sessions {}).exec always (fun _ : Unit => .inl (.refresh tokenJ1))
          ((sessions {}).initial (fun _ => .inl (.refresh tokenJ1)) s) refreshAlone).any
            (fun P => accepted (P.pcs ()))) = true := by decide
  obtain ⟨⟨w, log⟩, hrun, hs⟩ := Machine.serve_reaches (finished · = true)
    (fun _ _ => True) (fun h => h) (fun _ => trivial) hexec
  obtain ⟨P, hP, hok⟩ := Machine.exec_reaches_free hs
  have hsolo := hP.solo
  unfold accepted at hok
  split at hok
  · rename_i r hpc
    rw [hpc] at hsolo
    refine ⟨w, log, hrun, P.shared, .ok r, hsolo, rfl, ?_⟩
    have href := (refresh_refines {} rfl (by decide) hrun tokenJ1).2 P.shared.1 P.shared.2 (.ok r)
    exact ((href hsolo).1 rfl).2.1.outstanding
  · cases hok

end Intaktok.Admin
