import Intaktok.Realtime.Frames
import Intaktok.Push.Recipients
import Intaktok.Messages.Numbers
import Intaktok.Lib.Serial
/-
# What a suspended user still gets

`enforceBlock` disconnects the sockets of whom it suspends, and `handleConnection` lets nobody in
who is not `ACTIVE`: between operations nobody `SUSPENDED` has a socket. The push goes by
membership, presence and mutes alone (`push.service.ts:51`–`:75`). A blocked user stays a member, is
offline and keeps his tokens, and so the next message is pushed to him (`suspended_pushed`).

As long as `PushService` handles an event only where nobody `SUSPENDED` is to get it (`spares`), no
operation sends content to anybody `SUSPENDED` (`suspended_unreached`).
-/

namespace Intaktok.Realtime

open Interleave Tables

def suspended (w : World) (userId : String) : Bool :=
  w.db.users.rows.any fun u => u.id == userId && u.status == .SUSPENDED

/-- The server, the clock of which stands still while an operation runs. -/
def operations (cfg : AppConfig) (decode : String → Option Jwt) (json : Messages.Json) :
    Machine Hub (ServerCall ⊕ Env) (ServerPc ⊕ Bool) Choice Empty := (server cfg decode json).between

def completed : ServerPc ⊕ Bool → Bool
  | .inl pc => returned pc
  | .inr b => b

/-- The listener of `PushService` hears of what has been emitted. -/
def heard : ServerCall ⊕ Env → Hub → Bool
  | .inl (.inr ⟨.push, .onMessageCreated message memberUserIds preview roomTitle⟩), h =>
    h.world.events.contains (.messageCreated message memberUserIds preview roomTitle)
  | _, _ => true

/-- Nobody `SUSPENDED` is to get the push: he is the sender, online or muted, or has no token; or
there is no push, because it is a SYSTEM message, FCM is not configured, the presence of a recipient
cannot be read, or FCM is asked for more than 500 tokens. -/
def withheld (cfg : AppConfig) (w : World) (message : SerializedMessage)
    (memberUserIds : List String) : Bool :=
  let targets := Push.targets w message memberUserIds
  !cfg.fcmEnabled || !Push.answered w message memberUserIds ||
    decide (500 < (Push.userTokens w.db targets).length) ||
    w.db.pushTokens.rows.all fun t => !(targets.contains t.userId && suspended w t.userId)

/-- `PushService` handles an event only if nobody `SUSPENDED` is to get the push. -/
def spares (cfg : AppConfig) : ServerCall ⊕ Env → Hub → Bool
  | .inl (.inr ⟨.push, .onMessageCreated message memberUserIds _ _⟩), h =>
    withheld cfg h.world message memberUserIds
  | _, _ => true

/-- An action from `h` to `h'` has sent no content to anybody who is `SUSPENDED` in `h`. -/
structure Undisclosed (h h' : Hub) : Prop where
  pushed : ∀ m ∈ h'.world.pushed.drop h.world.pushed.length, ∀ t ∈ h.world.db.pushTokens.rows,
    t.fcmToken ∈ m.tokens → suspended h.world t.userId = false
  emitted : ∀ e ∈ h'.emitted.drop h.emitted.length, ∀ message, e.event = .messageNew message →
    ∀ s u, (h.sockets s).connected = true → (h.sockets s).userId = some u →
      (∃ room ∈ e.rooms, room ∈ (h.sockets s).rooms) → suspended h.world u = false

/-! ## Who is suspended -/

theorem suspended_iff {w : World} {userId : String} : suspended w userId = true ↔
    ∃ u ∈ w.db.users.rows, u.id = userId ∧ u.status = .SUSPENDED := by
  simp [suspended]

theorem suspended_congr {w w' : World} (h : w'.db.users = w.db.users) (userId : String) :
    suspended w' userId = suspended w userId := by
  simp only [suspended, h]

theorem active_not_suspended {w : World} {u : User} (hu : u ∈ w.db.users.rows)
    (hs : u.status = .ACTIVE) : suspended w u.id = false := by
  rw [← Bool.not_eq_true]
  intro h
  obtain ⟨x, hx, hid, hsus⟩ := suspended_iff.1 h
  obtain rfl : x = u := users_eq_of_id hx hu hid
  rw [hs] at hsus
  cases hsus

/-- What a write of `ACTIVE` leaves `SUSPENDED` has been so. -/
theorem suspended_activate {w : World} {p : User → Bool} {userId : String}
    (h : suspended { w with db.users := Auth.setUserStatus w.db.users p .ACTIVE } userId = true) :
    suspended w userId = true := by
  obtain ⟨x, hx, hid, hs⟩ := suspended_iff.1 h
  obtain ⟨u, hu, hxu⟩ := Auth.mem_setUserStatus.1 hx
  split at hxu <;> subst hxu
  · cases hs
  · exact suspended_iff.2 ⟨u, hu, hid, hs⟩

theorem suspended_suspend {w : World} {p : User → Bool} {userId : String}
    (h : suspended { w with db.users := Auth.setUserStatus w.db.users p .SUSPENDED } userId = true) :
    suspended w userId = true ∨ ∃ u ∈ w.db.users.rows, u.id = userId ∧ p u = true := by
  obtain ⟨x, hx, hid, hs⟩ := suspended_iff.1 h
  obtain ⟨u, hu, hxu⟩ := Auth.mem_setUserStatus.1 hx
  split at hxu <;> subst hxu
  · rename_i hp; exact .inr ⟨u, hu, hid, hp⟩
  · exact .inl (suspended_iff.2 ⟨u, hu, hid, hs⟩)

theorem suspended_upsertUser {w w' : World} {kakaoId id : String} {u : User}
    (hup : Auth.upsertUser w kakaoId id = some (w', u)) {userId : String}
    (h : suspended w' userId = true) : suspended w userId = true := by
  simp only [Auth.upsertUser] at hup
  split at hup
  · cases hup; exact suspended_activate h
  · split at hup
    · rename_i t ht
      split at hup <;> cases hup
      obtain ⟨x, hx, hid, hs⟩ := suspended_iff.1 h
      rcases (Table.mem_insert ht).1 hx with hx | rfl
      · exact suspended_iff.2 ⟨x, hx, hid, hs⟩
      · cases hs
    · cases hup

theorem suspended_enroll {w w' : World} {info : Auth.KakaoUserInfo} {row : Whitelist} {id : String}
    {r : Except Failure User} (he : Auth.enroll w info row id = some (w', r)) {userId : String}
    (h : suspended w' userId = true) : suspended w userId = true := by
  simp only [Auth.enroll] at he
  split at he
  · cases he
  · rename_i w₁ u hup
    split at he
    · split at he <;> cases he
      · exact suspended_upsertUser hup ((suspended_congr rfl userId).symm.trans h)
      · exact h
    · cases he; exact suspended_upsertUser hup h

theorem suspended_sweep {c : Choice} {pattern : String} {sw : Sweep} {n : Option Sweep}
    {w w' : World} (hs : sweepStep c pattern w sw = some (w', n)) (userId : String) :
    suspended w' userId = suspended w userId := by
  rcases sweepStep_world hs with rfl | ⟨key, rfl⟩ <;> rfl

/-- No action of `AuthService` suspends anybody. -/
theorem suspended_auth {cfg : AppConfig} {c : Choice} {call : Auth.Call} {w w' : World}
    {pc pc' : Auth.Pc} (hs : Auth.step cfg c call w pc = some (w', pc')) {userId : String}
    (h : suspended w' userId = true) : suspended w userId = true := by
  cases Auth.acts_of_step hs with
  | record hu =>
    obtain ⟨t, rfl⟩ := Auth.upsertAccessRequest_world hu
    exact (suspended_congr rfl userId).symm.trans h
  | enroll he => exact suspended_enroll he h
  | enrollFailed he => exact suspended_enroll he h
  | sweep hsw | swept hsw => exact suspended_sweep hsw userId ▸ h
  | _ => exact h

/-- `enforceBlock` suspends, and no other action. -/
theorem suspended_admin {c : Choice} {call : Admin.Call} {w w' : World} {pc pc' : Admin.Pc}
    (hs : Admin.step c call w pc = some (w', pc')) {userId : String}
    (h : suspended w' userId = true) : suspended w userId = true ∨
      ∃ updated, pc' = .revoke updated userId .scan := by
  obtain ⟨id, dto⟩ := call
  cases Admin.acts_of_step hs with
  | @suspend updated user =>
    refine (suspended_suspend h).imp_right ?_
    rintro ⟨u, -, rfl, hu⟩
    exact ⟨updated, by rw [← (by simpa using hu : u.id = user.id)]⟩
  | activate => exact .inl (suspended_activate h)
  | sweep hsw | swept hsw => exact .inl (suspended_sweep hsw userId ▸ h)
  | _ => exact .inl h

/-! ## What the services do to it -/

section Services
variable {cfg : AppConfig} {json : Messages.Json} {c : Choice} {w w' : World}

theorem service_pushed {s : Service} (hne : s ≠ .push) {call : s.Call} {pc pc' : s.Pc}
    (hs : (s.machine cfg json).step c call w pc = some (w', pc')) : w'.pushed = w.pushed := by
  cases s with
  | auth => obtain ⟨_, _, _, _, _, rfl⟩ := Auth.step_db hs; rfl
  | admin => exact (Admin.step_db hs).2
  | whitelist => obtain ⟨_, _, rfl⟩ := Admin.entryStep_db hs; rfl
  | messages => exact (Messages.step_db hs).2
  | rooms => exact (Rooms.step_db hs).2
  | roomUpdates => exact (Rooms.updateStep_db hs).2
  | push => exact absurd rfl hne
  | media => obtain ⟨media, objects, rfl⟩ := MediaService.step_db hs; rfl
  | profile => obtain ⟨profiles, rfl⟩ := ProfileService.step_db hs; rfl

/-- Only an admin operation suspends anybody. -/
theorem service_suspended {s : Service} (hne : s ≠ .admin) {call : s.Call} {pc pc' : s.Pc}
    (hs : (s.machine cfg json).step c call w pc = some (w', pc')) {userId : String}
    (h : suspended w' userId = true) : suspended w userId = true := by
  refine (?_ : w'.db.users = w.db.users ∨ suspended w userId = true).elim
    (fun hu => (suspended_congr hu userId).symm.trans h) id
  cases s with
  | auth => exact .inr (suspended_auth hs h)
  | admin => exact absurd rfl hne
  | whitelist => obtain ⟨_, _, rfl⟩ := Admin.entryStep_db hs; exact .inl rfl
  | messages => obtain ⟨⟨_, _, _, hdb⟩, -⟩ := Messages.step_db hs; exact .inl (by rw [hdb])
  | rooms => obtain ⟨⟨_, _, _, hdb⟩, -⟩ := Rooms.step_db hs; exact .inl (by rw [hdb])
  | roomUpdates => obtain ⟨⟨_, _, hdb⟩, -⟩ := Rooms.updateStep_db hs; exact .inl (by rw [hdb])
  | push => obtain ⟨_, _, rfl⟩ := Push.step_db hs; exact .inl rfl
  | media => obtain ⟨_, _, rfl⟩ := MediaService.step_db hs; exact .inl rfl
  | profile => obtain ⟨_, rfl⟩ := ProfileService.step_db hs; exact .inl rfl

end Services

/-! ## Between operations and within one -/

/-- Every connected socket is in the room of its user, who is not `SUSPENDED`. -/
def Secure (h : Hub) : Prop :=
  ∀ s v, (h.sockets s).connected = true → (h.sockets s).userId = some v →
    userRoom v ∈ (h.sockets s).rooms ∧ suspended h.world v = false

/-- The handshake of the socket `s` is about to join the room of `v`. -/
def Entering (k : ServerCall ⊕ Env) (l : ServerPc ⊕ Bool) (s v : String) : Prop :=
  (∃ hs, k = .inl (.inl (.inl (.connect s hs)))) ∧
    l = .inl (.inl (.inl (.connect (.joinUser v))))

/-- A block has suspended `v` and not yet disconnected his sockets. -/
def Revoking (l : ServerPc ⊕ Bool) (v : String) : Prop :=
  ∃ updated sweep, l = .inl (.inr ⟨.admin, .revoke updated v sweep⟩)

/-- The listener has sent what it sends, or is to send nothing to anybody `SUSPENDED`. -/
def Pushing (cfg : AppConfig) (w : World) : ServerCall ⊕ Env → ServerPc ⊕ Bool → Prop
  | .inl (.inr ⟨.push, .onMessageCreated message memberUserIds _ _⟩), .inl (.inr ⟨.push, pc⟩) =>
    pc = .handled ∨ (∃ invalid, pc = .purge invalid) ∨
      withheld cfg w message memberUserIds = true ∧ Push.Progress w message memberUserIds pc
  | _, _ => True

structure Securing (cfg : AppConfig) (k : ServerCall ⊕ Env) (h : Hub) (l : ServerPc ⊕ Bool) :
    Prop where
  room : ∀ s v, (h.sockets s).connected = true → (h.sockets s).userId = some v →
    userRoom v ∈ (h.sockets s).rooms ∨ Entering k l s v
  active : ∀ s v, (h.sockets s).connected = true → (h.sockets s).userId = some v →
    suspended h.world v = false ∨ Revoking l v
  push : Pushing cfg h.world k l

theorem Secure.securing {cfg : AppConfig} {k : ServerCall ⊕ Env} {h : Hub} {l : ServerPc ⊕ Bool}
    (hS : Secure h) (hp : Pushing cfg h.world k l) : Securing cfg k h l where
  room s v hc hv := .inl (hS s v hc hv).1
  active s v hc hv := .inl (hS s v hc hv).2
  push := hp

theorem Securing.secure {cfg : AppConfig} {k : ServerCall ⊕ Env} {h : Hub} {l : ServerPc ⊕ Bool}
    (hJ : Securing cfg k h l) (hin : ∀ s v, ¬Entering k l s v) (hre : ∀ v, ¬Revoking l v) :
    Secure h := fun s v hc hv =>
  ⟨(hJ.room s v hc hv).resolve_right (hin s v), (hJ.active s v hc hv).resolve_right (hre v)⟩

theorem Secure.stays {h h' : Hub} (hS : Secure h)
    (hstay : ∀ j, (h.sockets j).Stays (h'.sockets j))
    (hsus : ∀ v, suspended h'.world v = true → suspended h.world v = true) : Secure h' := by
  intro s v hc hv
  obtain ⟨hr, ha⟩ := hS s v ((hstay s).connected hc) ((hstay s).userId ▸ hv)
  refine ⟨(hstay s).rooms hc _ hr, ?_⟩
  rw [← Bool.not_eq_true] at ha ⊢
  exact mt (hsus v) ha

/-! ## One action -/

section Step
variable {cfg : AppConfig} {decode : String → Option Jwt} {json : Messages.Json} {c : Choice}
  {h h' : Hub}

theorem securing_connect {s₀ : String} {hs : Handshake} {pc pc' : ConnectPc}
    (hJ : Securing cfg (.inl (.inl (.inl (.connect s₀ hs)))) h (.inl (.inl (.inl (.connect pc)))))
    (hstep : connectStep cfg decode s₀ hs h pc = some (h', pc')) :
    Securing cfg (.inl (.inl (.inl (.connect s₀ hs)))) h' (.inl (.inl (.inl (.connect pc')))) := by
  have hre : ∀ v, ¬Revoking (.inl (.inl (.inl (.connect pc)))) v := by rintro v ⟨_, _, hl⟩; cases hl
  have hsus : ∀ v, suspended h'.world v = suspended h.world v :=
    suspended_congr (by rw [(connectStep_world hstep).1])
  rcases connectStep_sockets hstep with hstay | ⟨sub, rfl, rfl, ⟨u, hu, rfl, hact⟩, rfl⟩
  · refine Secure.securing (fun s v hc hv => ?_) trivial
    have hc₀ := (hstay s).connected hc
    rw [(hstay s).userId] at hv
    refine ⟨?_, (hsus v).trans ((hJ.active s v hc₀ hv).resolve_right (hre v))⟩
    rcases hJ.room s v hc₀ hv with hr | ⟨⟨hs', hk⟩, hl⟩
    · exact (hstay s).rooms hc _ hr
    · -- the join itself
      cases hk
      cases hl
      cases hstep
      exact mem_rooms_join List.mem_cons_self
  · have hS : Secure h := hJ.secure (by rintro s v ⟨-, hl⟩; cases hl) hre
    refine ⟨fun s v hc hv => ?_, fun s v hc hv => .inl ((hsus v).trans ?_), trivial⟩
    all_goals
      simp only [Hub.sockets_update] at hc hv ⊢
      split at hv
    · rename_i hs₀
      obtain rfl : u.id = v := by simpa using hv
      exact .inr ⟨⟨hs, by rw [hs₀]⟩, rfl⟩
    · rename_i hs₀
      rw [if_neg hs₀] at hc ⊢
      exact .inl (hS s v hc hv).1
    · obtain rfl : u.id = v := by simpa using hv
      exact active_not_suspended hu hact
    · rename_i hs₀
      rw [if_neg hs₀] at hc
      exact (hS s v hc hv).2

theorem securing_admin {call : Admin.Call} {w : World} {pc pc' : Admin.Pc}
    (hJ : Securing cfg (.inl (.inr ⟨.admin, call⟩)) h (.inl (.inr ⟨.admin, pc⟩)))
    (hstep : Admin.step c call h.world pc = some (w, pc')) :
    Securing cfg (.inl (.inr ⟨.admin, call⟩)) (deliver h.world.events { h with world := w })
      (.inl (.inr ⟨.admin, pc'⟩)) := by
  have hroom : ∀ s v, (h.sockets s).connected = true → (h.sockets s).userId = some v →
      userRoom v ∈ (h.sockets s).rooms := fun s v hc hv =>
    (hJ.room s v hc hv).resolve_right (by rintro ⟨⟨_, hk⟩, -⟩; cases hk)
  rcases Admin.step_events hstep with ⟨he, hre⟩ | ⟨updated, u, sweep, rfl, rfl, he⟩
  · rw [deliver_same (h := { h with world := w }) he]
    refine ⟨fun s v hc hv => .inl (hroom s v hc hv), fun s v hc hv => ?_, trivial⟩
    rcases hJ.active s v hc hv with ha | ⟨updated, sweep, hl⟩
    · refine or_iff_not_imp_left.2 fun hsus => ?_
      rcases suspended_admin hstep (by simpa using hsus) with hold | ⟨updated, rfl⟩
      · rw [hold] at ha; cases ha
      · exact ⟨updated, .scan, rfl⟩
    · cases hl
      obtain ⟨sweep', rfl⟩ := hre _ _ _ rfl
      exact .inr ⟨updated, sweep', rfl⟩
  · -- the sockets of `u` go
    rw [deliver_of_events (h := { h with world := w }) he]
    refine Secure.securing (fun s v hc hv => ?_) trivial
    simp only [List.foldl_cons, List.foldl_nil, onEvent, Hub.disconnectSockets] at hc hv ⊢
    split at hc
    · cases hc
    · rename_i hu
      rw [if_neg hu] at hv ⊢
      have hr := hroom s v hc hv
      have hne : v ≠ u := by rintro rfl; exact hu (by simpa using hr)
      have ha : suspended h.world v = false := (hJ.active s v hc hv).resolve_right (by
        rintro ⟨_, _, hl⟩; cases hl; exact hne rfl)
      refine ⟨hr, Bool.eq_false_iff.2 fun hsus => ?_⟩
      rcases suspended_admin hstep hsus with hold | ⟨_, hpc⟩
      · rw [hold] at ha; cases ha
      · cases hpc

/-- The listener pushes to its targets, and nobody `SUSPENDED` is one of those with a token. -/
theorem pushing_step {call : Push.Call} {w w' : World} {pc pc' : Push.Pc}
    (hp : Pushing cfg w (.inl (.inr ⟨.push, call⟩)) (.inl (.inr ⟨.push, pc⟩)))
    (hstep : Push.step cfg c call w pc = some (w', pc')) :
    Pushing cfg w' (.inl (.inr ⟨.push, call⟩)) (.inl (.inr ⟨.push, pc'⟩)) ∧
      ∀ m ∈ w'.pushed.drop w.pushed.length, ∀ t ∈ w.db.pushTokens.rows,
        t.fcmToken ∈ m.tokens → suspended w t.userId = false := by
  have hnone : ∀ {P : Multicast → Prop}, w'.pushed = w.pushed →
      ∀ m ∈ w'.pushed.drop w.pushed.length, P m := by
    intro P he
    simp [he]
  cases call with
  | registerToken userId dto =>
    cases pc with
    | upsert => obtain ⟨t, rfl⟩ := Push.upsertToken_world hstep; exact ⟨trivial, hnone rfl⟩
    | _ => cases hstep
  | removeToken userId tokenId =>
    cases pc with
    | deleteMany =>
      simp only [Push.step] at hstep
      split at hstep <;> cases hstep <;> exact ⟨trivial, hnone rfl⟩
    | _ => cases hstep
  | onMessageCreated message memberUserIds preview roomTitle =>
    rcases hp with rfl | ⟨invalid, rfl⟩ | ⟨hw, hp⟩
    · cases hstep
    · cases hstep; exact ⟨.inl rfl, hnone rfl⟩
    · rcases Push.progress_step hp hstep with ⟨rfl, hp'⟩ | ⟨m, rfl, hfcm, ha, htok, hfew, hpc⟩ |
        ⟨invalid, rfl, rfl, t, rfl⟩
      · exact ⟨.inr (.inr ⟨hw, hp'⟩), hnone rfl⟩
      · refine ⟨hpc.elim (.inr ∘ .inl) .inl, ?_⟩
        simp only [List.drop_left, List.mem_singleton]
        rintro m' rfl t ht hmem
        rw [htok] at hmem hfew
        obtain ⟨t', ht', hte⟩ := List.mem_map.1 hmem
        obtain ⟨ht', htarget⟩ := Table.mem_findMany.1 ht'
        obtain rfl := pushTokens_eq_of_fcmToken ht' ht hte
        -- of what `withheld` allows only the last is left
        have hout : ∀ x ∈ w.db.pushTokens.rows, x.userId ∉ Push.targets w message memberUserIds ∨
            suspended w x.userId = false := by
          simpa [withheld, hfcm, ha, Nat.not_lt.2 hfew] using hw
        exact (hout t' ht).resolve_left (not_not_intro (List.contains_iff_mem.1 htarget))
      · exact ⟨.inl rfl, hnone rfl⟩

theorem securing_step {k : ServerCall ⊕ Env} {l l' : ServerPc ⊕ Bool} (hJ : Securing cfg k h l)
    (hs : (operations cfg decode json).step c k h l = some (h', l')) : Securing cfg k h' l' := by
  rcases Machine.between_step hs with ⟨k, l, l', rfl, rfl, rfl, hstep⟩ | ⟨e, rfl, rfl, rfl⟩
  · obtain ⟨h₁, hacts, rfl⟩ := server_step hstep
    cases hacts with
    | socket hsocket =>
      cases acts_of_socket hsocket with
      | connect hconnect =>
        rw [deliver_same (connectStep_world hconnect).2.1]
        exact securing_connect hJ hconnect
      | read hread =>
        have hS : Secure h := hJ.secure (by rintro s v ⟨⟨_, hk⟩, -⟩; cases hk)
          (by rintro v ⟨_, _, hl⟩; cases hl)
        obtain ⟨w, rfl, ⟨members, hdb⟩, -⟩ := onReadStep_world hread
        refine (hS.stays (stays_deliver _ { h with world := w }) fun v hv => ?_).securing trivial
        rw [world_deliver] at hv
        exact (suspended_congr (by rw [hdb]) v).symm.trans hv
    | @event call pc _ pc' hevent =>
      have hS : Secure h := hJ.secure (by rintro s v ⟨⟨_, hk⟩, -⟩; cases hk)
        (by rintro v ⟨_, _, hl⟩; cases hl)
      obtain ⟨hstay, ⟨_, _, _, hdb⟩, -⟩ := eventStep_world hevent
      refine (hS.stays (fun j => (hstay j).trans (stays_deliver _ _ j)) fun v hv => ?_).securing
        trivial
      rw [world_deliver] at hv
      exact (suspended_congr (by rw [hdb]) v).symm.trans hv
    | @service s call pc pc' w hservice =>
      by_cases hadmin : s = .admin
      · subst hadmin
        exact securing_admin hJ hservice
      · have hS : Secure h := hJ.secure (by rintro s v ⟨⟨_, hk⟩, -⟩; cases hk)
          (by rintro v ⟨_, _, hl⟩; cases hl; exact hadmin rfl)
        refine (hS.stays (stays_deliver _ { h with world := w }) fun v => ?_).securing ?_
        · rw [world_deliver]
          exact service_suspended hadmin hservice
        · rw [world_deliver]
          cases s with
          | push => exact (pushing_step hJ.push hservice).1
          | _ => trivial
  · have hS : Secure h := hJ.secure (by rintro s v ⟨⟨_, hk⟩, -⟩; cases hk)
      (by rintro v ⟨_, _, rfl⟩; cases hs)
    refine (@Secure.stays h (env cfg e h) hS (fun j => ?_) fun v hv => ?_).securing trivial
    · rw [sockets_env]; exact .refl _
    · exact (suspended_congr (by rw [db_env]) v).symm.trans hv

/-- Nobody `SUSPENDED` gets what an operation sends. -/
theorem undisclosed_step {k : ServerCall ⊕ Env} {l l' : ServerPc ⊕ Bool}
    (hJ : Securing cfg k h l)
    (hs : (operations cfg decode json).step c k h l = some (h', l')) : Undisclosed h h' where
  pushed := by
    have hnone : ∀ {P : Multicast → Prop}, h'.world.pushed = h.world.pushed →
        ∀ m ∈ h'.world.pushed.drop h.world.pushed.length, P m := by
      intro P he
      simp [he]
    rcases Machine.between_step hs with ⟨k, l, l', rfl, rfl, rfl, hstep⟩ | ⟨e, rfl, rfl, rfl⟩
    · obtain ⟨h₁, hacts, rfl⟩ := server_step hstep
      rw [world_deliver] at hnone ⊢
      cases hacts with
      | socket hsocket =>
        cases acts_of_socket hsocket with
        | connect hconnect => exact hnone (connectStep_world hconnect).2.2
        | read hread =>
          obtain ⟨w, rfl, -, hp⟩ := onReadStep_world hread
          exact hnone hp
      | event hevent => exact hnone (eventStep_world hevent).2.2
      | @service s call pc pc' w hservice =>
        by_cases hpush : s = .push
        · subst hpush
          exact (pushing_step hJ.push hservice).2
        · exact hnone (service_pushed hpush hservice)
    · exact hnone (pushed_env cfg e h)
  emitted e he message hm s u hc hu hroom := by
    rcases hJ.active s u hc hu with ha | ⟨updated, sweep, rfl⟩
    · exact ha
    · -- a block emits nothing to sockets
      exfalso
      rcases Machine.between_step hs with ⟨k, l, l', rfl, hl, rfl, hstep⟩ | ⟨e, rfl, rfl, rfl⟩
      · cases hl
        obtain ⟨h₁, hacts, rfl⟩ := server_step hstep
        cases hacts with
        | @service _ call _ pc' w hservice =>
          rcases @Admin.step_events c call h.world w (.revoke updated u sweep) pc' hservice with
            ⟨hev, -⟩ | ⟨_, v, _, -, -, hev⟩
          · rw [deliver_same (h := { h with world := w }) hev] at he
            simp at he
          · rw [deliver_of_events (h := { h with world := w }) hev] at he
            simp [onEvent, Hub.disconnectSockets] at he
      · cases hs

end Step

/-! ## Runs -/

/-- **Whom the listener leaves out gets nothing.** Wherever a serial run from sockets nobody has
authenticated has come to, in which the listener handles an event only if nobody `SUSPENDED` is to
get the push, its next action sends no content to anybody `SUSPENDED`. -/
theorem suspended_unreached (cfg : AppConfig) (decode : String → Option Jwt) (json : Messages.Json)
    {hub h h' : Hub} (hhub : ∀ s, (hub.sockets s).userId = none) {k : ServerCall ⊕ Env}
    {l l' : ServerPc ⊕ Bool} {c : Choice}
    (hrun : Serving (operations cfg decode json) (completed · = true)
      (fun k h => heard k h = true ∧ spares cfg k h = true) hub k h l)
    (hstep : (operations cfg decode json).step c k h l = some (h', l')) : Undisclosed h h' := by
  refine undisclosed_step (hrun.invariant Secure (Securing cfg) ?_ ?_ securing_step ?_
    (fun e => e.elim) (fun e => e.elim)) hstep
  · intro s v _ hv
    rw [hhub s] at hv
    cases hv
  · intro k h hS hmay
    refine hS.securing ?_
    rcases k with (_ | ⟨s, call⟩) | e
    · trivial
    · cases s with
      | push =>
        cases call with
        | onMessageCreated message members preview title =>
          exact .inr (.inr ⟨hmay.2, @Push.progress_start h.world message members preview title⟩)
        | _ => trivial
      | _ => trivial
    · trivial
  · intro k h l hJ hdone
    refine hJ.secure ?_ ?_
    · rintro s v ⟨-, rfl⟩; cases hdone
    · rintro v ⟨_, _, rfl⟩; cases hdone

/-! ### A member with a phone -/

/-- `a` has a phone, and is on the whitelist as `wa`. -/
def hubAB : Hub where
  world := { Messages.worldR1 with
    db.whitelist := ⟨[{ id := "wa", kakaoId := some "ka", status := .ACTIVE }], by decide⟩
    db.pushTokens :=
      ⟨[{ id := "t", userId := "a", fcmToken := "phone", platform := "ios" }], by decide⟩ }

abbrev operationsAB : Machine Hub (ServerCall ⊕ Env) (ServerPc ⊕ Bool) Choice Empty :=
  operations {} (fun _ => none) Messages.noJson

abbrev Operation := (ServerCall ⊕ Env) × List (Move Unit Choice Empty)

def go (n : Nat) (c : Choice := {}) : List (Move Unit Choice Empty) := List.replicate n (.step () c)

def blockA : Operation :=
  (.inl (.inr ⟨.admin, .update "wa" { status := some (some .BLOCKED) }⟩), go 6)

def sendB : Operation :=
  (.inl (.inr ⟨.messages, Messages.say "b"⟩),
    go 7 { id := "m1" } ++ [.step () {}, .step () { pick := 1 }, .step () { pick := 2 }])

/-- The listener hears of it. -/
def pushB : ServerCall ⊕ Env :=
  .inl (.inr ⟨.push, .onMessageCreated
    (Messages.serialize { Messages.messageR1 "m1" 1 with senderId := "b" }) ["a", "b"] "hi"
    "그룹 채팅"⟩)

/-- What the next action sends goes to `t`'s user, `SUSPENDED` or not. -/
def sendsTo (suspendedToo : Bool) (P : Pool Hub (ServerPc ⊕ Bool) Unit) : Bool :=
  (operationsAB.step {} pushB P.shared (P.pcs ())).any fun r =>
    (r.1.world.pushed.drop P.shared.world.pushed.length).any fun m =>
      P.shared.world.db.pushTokens.rows.any fun t =>
        m.tokens.contains t.fcmToken && suspended P.shared.world t.userId == suspendedToo

/-- Who is not blocked gets his push. -/
theorem suspended_unreached_ab : ∃ (h h' : Hub) (l l' : ServerPc ⊕ Bool),
    Serving operationsAB (completed · = true) (fun k h => heard k h = true ∧ spares {} k h = true)
      hubAB pushB h l ∧
    operationsAB.step {} pushB h l = some (h', l') ∧ h'.world.pushed ≠ h.world.pushed ∧
    Undisclosed h h' := by
  have hexec : (operationsAB.serve completed (fun k h => heard k h && spares {} k h) hubAB
      [sendB]).any (fun h => heard pushB h && spares {} pushB h &&
        (operationsAB.exec always (fun _ => pushB) (operationsAB.initial (fun _ => pushB) h)
          (go 3)).any (sendsTo false)) = true := by decide
  obtain ⟨P, hrun, hP⟩ := Machine.serving_reaches (completed · = true) _ id
    (fun hm => Bool.and_eq_true_iff.1 hm) hexec
  obtain ⟨⟨h', l'⟩, hstep, hm⟩ := (Option.any_eq_true _ _).1 hP
  refine ⟨P.shared, h', P.pcs (), l', hrun, hstep, fun he => ?_,
    suspended_unreached {} (fun _ => none) Messages.noJson (fun _ => rfl) hrun hstep⟩
  simp [he] at hm

/-- **Pushed to a blocked user.** He is a member still, offline, and his phone is registered. -/
theorem suspended_pushed : ¬ ∀ (cfg : AppConfig) (decode : String → Option Jwt)
    (json : Messages.Json) (hub h h' : Hub), (∀ s, (hub.sockets s).userId = none) →
    ∀ (k : ServerCall ⊕ Env) (l l' : ServerPc ⊕ Bool) (c : Choice),
    Serving (operations cfg decode json) (completed · = true) (heard · · = true) hub k h l →
    (operations cfg decode json).step c k h l = some (h', l') → Undisclosed h h' := by
  intro hall
  have hexec : (operationsAB.serve completed heard hubAB [blockA, sendB]).any (fun h =>
      heard pushB h && (operationsAB.exec always (fun _ => pushB)
        (operationsAB.initial (fun _ => pushB) h) (go 3)).any (sendsTo true)) = true := by decide
  obtain ⟨P, hrun, hP⟩ :=
    Machine.serving_reaches (completed · = true) (heard · · = true) id id hexec
  obtain ⟨⟨h', l'⟩, hstep, hm⟩ := (Option.any_eq_true _ _).1 hP
  obtain ⟨m, hmem, ht⟩ := List.any_eq_true.1 hm
  obtain ⟨t, htmem, ht⟩ := List.any_eq_true.1 ht
  simp only [Bool.and_eq_true, List.contains_iff_mem, beq_iff_eq] at ht
  have hkept := (hall {} _ Messages.noJson hubAB P.shared h' (fun _ => rfl) pushB _ l' {} hrun
    hstep).pushed m hmem t htmem ht.1
  rw [ht.2] at hkept
  cases hkept

end Intaktok.Realtime
