import Intaktok.Lib.Hosting
import Intaktok.Push.Recipients
/-
# Which devices a push reaches

The listener as one function of the state it finds: what it asks FCM to send, and what it leaves of
the tokens. It hands all the tokens to one `sendEachForMulticast`, which takes 500, so it reaches
the devices it is meant for if and only if they are no more than that (`push_reaches`); a larger
number gets nothing (`push_lost`). `onMessageCreated_runs` is what this has to do with the listener
cut at its awaits.

| here | there |
| --- | --- |
| `SendResponse`, `Fcm` | `SendResponse` and `sendEachForMulticast` of `firebase-admin` |
| `invalidTokens` | the loop over `res.responses` (`fcm.service.ts:97`) |
| `push` | `sendToTokens` and what follows it (`push.service.ts:75`) |
| `onMessageCreated` | `onMessageCreated` (`:46`) |
-/

namespace Intaktok.Push

open Interleave Tables

/-! ## The listener as a function -/

/-- What became of one token; `code` is that of the error. -/
structure SendResponse where
  success : Bool
  code : Option String := none
deriving DecidableEq, Repr

/-- `none`: the call rejects. -/
abbrev Fcm := Multicast → Option (List SendResponse)

def unregistered (r : SendResponse) : Bool :=
  let code := r.code.getD ""
  !r.success && (code == "messaging/registration-token-not-registered" ||
    code == "messaging/invalid-registration-token")

/-- The tokens at the places of the responses. -/
def invalidTokens (tokens : List String) (responses : List SendResponse) : List String :=
  (tokens.zip responses).filterMap fun (token, r) => if unregistered r then some token else none

/-- What the listener has asked FCM to send, and the state it leaves. -/
structure Delivery where
  multicasts : List Multicast := []
  world : World

def push (cfg : AppConfig) (fcm : Fcm) (multicast : Multicast) (w : World) : Delivery :=
  if !cfg.fcmEnabled || multicast.tokens.isEmpty then { world := w }
  else match fcm multicast with
    | none => { multicasts := [multicast], world := w }
    | some responses =>
      let w' := { w with pushed := w.pushed ++ [multicast] }
      let invalid := invalidTokens multicast.tokens responses
      let t := w.db.pushTokens.deleteWhere fun t => invalid.contains t.fcmToken
      { multicasts := [multicast]
        world := if invalid.isEmpty then w' else { w' with db.pushTokens := t } }

/-- The listener, while nobody else changes the state. -/
def onMessageCreated (cfg : AppConfig) (fcm : Fcm) (message : SerializedMessage)
    (memberUserIds : List String) (preview roomTitle : String) (w : World) : Delivery :=
  let recipients := recipientIds message memberUserIds
  if message.type = .SYSTEM ∨ recipients = [] then { world := w }
  else match recipients.mapM (Presence.isOnline w) with
    | none => { world := w }
    | some onlineFlags =>
      let offline := (recipients.zip onlineFlags).filterMap fun (id, online) =>
        if online then none else some id
      if offline = [] then { world := w }
      else
        let muted := (w.db.roomMembers.findMany fun m => m.roomId == message.roomId &&
          offline.contains m.userId && m.mutedUntil.any (w.now < ·)).map (·.userId)
        let targets := offline.filter (!muted.contains ·)
        if targets = [] then { world := w }
        else
          let tokens := userTokens w.db targets
          if tokens = [] then { world := w }
          else
            let multicast : Multicast :=
              { tokens, title := roomTitle, body := preview, roomId := message.roomId,
                messageId := message.id, type := message.type }
            push cfg fcm multicast w

/-! ## What it is for -/

/-- Whom a push of the message is meant for. -/
def isTarget (w : World) (message : SerializedMessage) (memberUserIds : List String) (u : String) :
    Bool :=
  memberUserIds.contains u && u != message.senderId && Presence.isOnline w u != some true &&
    !isMuted w message.roomId u

def devices (w : World) (message : SerializedMessage) (memberUserIds : List String) :
    List PushToken :=
  w.db.pushTokens.findMany fun t => isTarget w message memberUserIds t.userId

/-- The tokens it has asked FCM to send to. -/
def Delivery.tokens (d : Delivery) : List String := d.multicasts.flatMap (·.tokens)

/-- A push reaches the right devices, `verdict` being what FCM says of each token. -/
structure Reaches (verdict : String → SendResponse) (w : World) (message : SerializedMessage)
    (memberUserIds : List String) (d : Delivery) : Prop where
  once : d.tokens.Nodup
  devices : ∀ token, token ∈ d.tokens ↔
    ∃ row ∈ devices w message memberUserIds, row.fcmToken = token
  batches : ∀ m ∈ d.multicasts, m.tokens.length ≤ 500
  purged : ∀ row, row ∈ d.world.db.pushTokens.rows ↔ row ∈ w.db.pushTokens.rows ∧
    ¬ (row.fcmToken ∈ d.tokens ∧ unregistered (verdict row.fcmToken) = true)

/-- What is relied on of `sendEachForMulticast`: it takes 500 tokens, and answers in their order. -/
structure Documented (fcm : Fcm) (verdict : String → SendResponse) : Prop where
  limit : ∀ m, 500 < m.tokens.length → fcm m = none
  order : ∀ m, m.tokens ≠ [] → m.tokens.length ≤ 500 → fcm m = some (m.tokens.map verdict)

section Listener
variable {cfg : AppConfig} {fcm : Fcm} {verdict : String → SendResponse} {w : World}
  {message : SerializedMessage} {memberUserIds : List String} {preview roomTitle : String}

/-! ## The tokens -/

/-- All the answers are there. -/
theorem mapM_isOnline {users : List String} (h : ∀ u ∈ users, (Presence.isOnline w u).isSome) :
    users.mapM (Presence.isOnline w) =
      some (users.map fun u => Presence.isOnline w u == some true) := by
  induction users with
  | nil => rfl
  | cons u users ih =>
    obtain ⟨online, hu⟩ := Option.isSome_iff_exists.1 (h u (by simp))
    have hrest := ih fun x hx => h x (List.mem_cons_of_mem _ hx)
    simp [List.mapM_cons, hu, hrest]

/-- What stands at the place of an element is its own. -/
theorem filterMap_zip_map {β : Type} (f : String → β) (p : β → Bool) (l : List String) :
    ((l.zip (l.map f)).filterMap fun (x, y) => if p y then some x else none) =
      l.filter fun x => p (f x) := by
  induction l with
  | nil => rfl
  | cons x l ih =>
    cases hx : p (f x) <;> simp [hx, ih]

theorem zip_flags (flag : String → Bool) (users : List String) :
    ((users.zip (users.map flag)).filterMap fun (id, online) => if online then none else some id) =
      users.filter (!flag ·) := by
  rw [← filterMap_zip_map flag (!·)]
  congr 1
  funext ⟨id, online⟩
  cases online <;> rfl

/-- The multicast to some tokens. -/
def toTokens (message : SerializedMessage) (preview roomTitle : String) (tokens : List String) :
    Multicast where
  tokens := tokens
  title := roomTitle
  body := preview
  roomId := message.roomId
  messageId := message.id
  type := message.type

/-- The one multicast the listener asks for. -/
def multicastOf (message : SerializedMessage) (memberUserIds : List String)
    (preview roomTitle : String) (w : World) : Multicast :=
  toTokens message preview roomTitle (userTokens w.db (targets w message memberUserIds))

theorem push_nil {m : Multicast} (h : m.tokens = []) : push cfg fcm m w = { world := w } := by
  simp [push, h]

theorem userTokens_nil (db : Db) : userTokens db [] = [] := by
  simp [userTokens, Table.findMany]

/-- Who is muted among the users that were asked for is muted. -/
theorem filter_muted (offline : List String) :
    (offline.filter fun u => !((w.db.roomMembers.findMany fun m => m.roomId == message.roomId &&
      offline.contains m.userId && m.mutedUntil.any (w.now < ·)).map (·.userId)).contains u) =
      offline.filter (!isMuted w message.roomId ·) := by
  refine List.filter_congr fun u hu => congrArg not (Bool.eq_iff_iff.2 ?_)
  simp only [List.contains_iff_mem, List.mem_map, Table.mem_findMany, isMuted, List.any_eq_true,
    Bool.and_eq_true, beq_iff_eq]
  constructor
  · rintro ⟨m, ⟨hm, ⟨hr, -⟩, hmuted⟩, rfl⟩
    exact ⟨m, hm, ⟨hr, rfl⟩, hmuted⟩
  · rintro ⟨m, hm, ⟨hr, rfl⟩, hmuted⟩
    exact ⟨m, ⟨hm, ⟨hr, hu⟩, hmuted⟩, rfl⟩

theorem targets_eq (w : World) (message : SerializedMessage) (memberUserIds : List String) :
    targets w message memberUserIds =
      ((recipientIds message memberUserIds).filter (Presence.isOnline w · == some false)).filter
        (!isMuted w message.roomId ·) := by
  rw [targets, List.filter_filter]
  exact List.filter_congr fun u _ => Bool.and_comm ..

/-- Where presence answers, the filters leave the `targets`. -/
theorem onMessageCreated_eq (ht : message.type ≠ .SYSTEM)
    (hp : ∀ u ∈ recipientIds message memberUserIds, (Presence.isOnline w u).isSome) :
    onMessageCreated cfg fcm message memberUserIds preview roomTitle w =
      push cfg fcm (multicastOf message memberUserIds preview roomTitle w) w := by
  have hflag : ∀ u ∈ recipientIds message memberUserIds,
      (!(Presence.isOnline w u == some true)) = (Presence.isOnline w u == some false) := by
    intro u hu
    obtain ⟨online, ho⟩ := Option.isSome_iff_exists.1 (hp u hu)
    cases online <;> simp [ho]
  have htargets := targets_eq w message memberUserIds
  have hempty : targets w message memberUserIds = [] →
      push cfg fcm (multicastOf message memberUserIds preview roomTitle w) w = { world := w } := by
    intro h
    exact push_nil (by rw [multicastOf, h, userTokens_nil]; rfl)
  simp only [onMessageCreated, mapM_isOnline hp, zip_flags, List.filter_congr hflag, filter_muted,
    ← htargets, ht, false_or]
  split
  · rename_i hnone
    exact (hempty (by rw [htargets, hnone]; rfl)).symm
  · split
    · rename_i hnone
      exact (hempty (by rw [htargets, hnone]; rfl)).symm
    · split
      · rename_i hnone
        exact (hempty hnone).symm
      · split
        · rename_i hnone
          exact (push_nil hnone).symm
        · rfl

/-! ## The devices -/

theorem mem_targets (hp : ∀ u ∈ recipientIds message memberUserIds, (Presence.isOnline w u).isSome)
    {u : String} : u ∈ targets w message memberUserIds ↔
      isTarget w message memberUserIds u = true := by
  simp only [targets, List.mem_filter, recipientIds, isTarget, Bool.and_eq_true, beq_iff_eq,
    bne_iff_ne, ne_eq, List.contains_iff_mem, Bool.not_eq_true']
  constructor
  · rintro ⟨⟨hu, hne⟩, hoff, hmuted⟩
    exact ⟨⟨⟨hu, hne⟩, by rw [hoff]; rintro ⟨⟩⟩, hmuted⟩
  · rintro ⟨⟨⟨hu, hne⟩, hnot⟩, hmuted⟩
    refine ⟨⟨hu, hne⟩, ?_, hmuted⟩
    obtain ⟨online, ho⟩ := Option.isSome_iff_exists.1
      (hp u (List.mem_filter.2 ⟨hu, by simpa using hne⟩))
    cases online with
    | false => exact ho
    | true => exact absurd ho hnot

theorem multicastOf_tokens
    (hp : ∀ u ∈ recipientIds message memberUserIds, (Presence.isOnline w u).isSome) :
    (multicastOf message memberUserIds preview roomTitle w).tokens =
      (devices w message memberUserIds).map (·.fcmToken) := by
  rw [multicastOf, toTokens, userTokens, devices, Table.findMany, Table.findMany]
  refine congrArg (List.map _) (List.filter_congr fun t _ => Bool.eq_iff_iff.2 ?_)
  rw [List.contains_iff_mem]
  exact mem_targets hp

/-- A token is registered once. -/
theorem nodup_fcmTokens (w : World) (message : SerializedMessage) (memberUserIds : List String) :
    ((devices w message memberUserIds).map (·.fcmToken)).Nodup := by
  refine Table.nodup_findMany (c := .fcmToken) (by simp [Row.constraints]) fun a b _ _ he => ?_
  simp [Row.clash, he]

/-! ## The limit -/

theorem invalidTokens_map (tokens : List String) :
    invalidTokens tokens (tokens.map verdict) =
      tokens.filter fun token => unregistered (verdict token) :=
  filterMap_zip_map verdict unregistered tokens

/-- What FCM takes it answers, and the tokens it names are deleted. -/
theorem push_answered (henabled : cfg.fcmEnabled = true) (hfcm : Documented fcm verdict)
    {m : Multicast} (hsome : m.tokens ≠ []) (hfew : m.tokens.length ≤ 500) :
    (push cfg fcm m w).multicasts = [m] ∧
      ∀ row, row ∈ (push cfg fcm m w).world.db.pushTokens.rows ↔ row ∈ w.db.pushTokens.rows ∧
        ¬ (row.fcmToken ∈ m.tokens ∧ unregistered (verdict row.fcmToken) = true) := by
  have hne : m.tokens.isEmpty = false := by simpa using hsome
  simp only [push, henabled, hne, Bool.not_true, Bool.or_self, Bool.false_eq_true, if_false,
    hfcm.order m hsome hfew, invalidTokens_map, true_and]
  intro row
  split
  · rename_i hnone
    rw [List.isEmpty_iff, List.filter_eq_nil_iff] at hnone
    exact ⟨fun hrow => ⟨hrow, fun hbad => hnone _ hbad.1 hbad.2⟩, And.left⟩
  · rw [Table.mem_deleteWhere, ← Bool.not_eq_true, List.contains_iff_mem, List.mem_filter]

/-- More than FCM takes is lost. -/
theorem push_refused (henabled : cfg.fcmEnabled = true) (hfcm : Documented fcm verdict)
    {m : Multicast} (hmany : 500 < m.tokens.length) :
    push cfg fcm m w = { multicasts := [m], world := w } := by
  have hne : m.tokens.isEmpty = false := by
    rw [List.isEmpty_eq_false_iff]
    rintro hnil
    rw [hnil] at hmany
    cases hmany
  simp [push, henabled, hne, hfcm.limit m hmany]

theorem not_reaches_of_many (henabled : cfg.fcmEnabled = true) (hfcm : Documented fcm verdict)
    (ht : message.type ≠ .SYSTEM)
    (hp : ∀ u ∈ recipientIds message memberUserIds, (Presence.isOnline w u).isSome)
    (hmany : 500 < (devices w message memberUserIds).length) :
    ¬ Reaches verdict w message memberUserIds
      (onMessageCreated cfg fcm message memberUserIds preview roomTitle w) := by
  intro h
  have hlength : 500 < (multicastOf message memberUserIds preview roomTitle w).tokens.length := by
    rw [multicastOf_tokens hp, List.length_map]
    exact hmany
  rw [onMessageCreated_eq ht hp, push_refused henabled hfcm hlength] at h
  exact absurd (h.batches _ (List.mem_singleton_self _)) (Nat.not_le.2 hlength)

/-- **A push reaches the devices it is meant for if and only if FCM takes that many at once.** -/
theorem push_reaches (cfg : AppConfig) (fcm : Fcm) (verdict : String → SendResponse) (w : World)
    (message : SerializedMessage) (memberUserIds : List String) (preview roomTitle : String)
    (henabled : cfg.fcmEnabled = true) (hfcm : Documented fcm verdict)
    (ht : message.type ≠ .SYSTEM)
    (hp : ∀ u ∈ recipientIds message memberUserIds, (Presence.isOnline w u).isSome) :
    Reaches verdict w message memberUserIds
        (onMessageCreated cfg fcm message memberUserIds preview roomTitle w) ↔
      (devices w message memberUserIds).length ≤ 500 := by
  constructor
  · intro h
    by_contra hmany
    exact not_reaches_of_many henabled hfcm ht hp (Nat.not_le.1 hmany) h
  · intro hfew
    have htokens : (multicastOf message memberUserIds preview roomTitle w).tokens = _ :=
      multicastOf_tokens hp
    have hnodup := nodup_fcmTokens w message memberUserIds
    rw [← htokens] at hnodup
    have hmem : ∀ token, token ∈ (multicastOf message memberUserIds preview roomTitle w).tokens ↔
        ∃ row ∈ devices w message memberUserIds, row.fcmToken = token := by
      intro token
      rw [htokens, List.mem_map]
    have hlength : (multicastOf message memberUserIds preview roomTitle w).tokens.length ≤ 500 := by
      rw [htokens, List.length_map]
      exact hfew
    rw [onMessageCreated_eq ht hp]
    generalize multicastOf message memberUserIds preview roomTitle w = m at hnodup hmem hlength
    by_cases hnil : m.tokens = []
    · -- nobody is to be pushed to
      rw [push_nil hnil]
      rw [hnil] at hmem
      refine ⟨.nil, hmem, fun _ hm => (nomatch hm), fun _ => ⟨fun h => ⟨h, ?_⟩, And.left⟩⟩
      exact fun hbad => nomatch hbad.1
    · obtain ⟨hmulticasts, hpurged⟩ := push_answered (w := w) henabled hfcm hnil hlength
      have hall : (push cfg fcm m w).tokens = m.tokens := by
        rw [Delivery.tokens, hmulticasts]
        simp
      refine ⟨hall ▸ hnodup, fun token => hall ▸ hmem token, ?_, fun row => hall ▸ hpurged row⟩
      rw [hmulticasts]
      intro m' hm'
      rw [List.mem_singleton.1 hm']
      exact hlength

/-! ## The listener at its awaits -/

/-- From `pc` on the listener, alone, comes to its end and leaves `w'`. -/
def EndsIn (cfg : AppConfig) (message : SerializedMessage) (memberUserIds : List String)
    (preview roomTitle : String) (w : World) (pc : Pc) (w' : World) : Prop :=
  Solo (machine cfg).still (.onMessageCreated message memberUserIds preview roomTitle) w pc w'
    .handled

theorem EndsIn.step {c : Choice} {pc pc' : Pc} {w₁ w' : World}
    (hs : handleStep cfg c message preview roomTitle w pc = some (w₁, pc'))
    (h : EndsIn cfg message memberUserIds preview roomTitle w₁ pc' w') :
    EndsIn cfg message memberUserIds preview roomTitle w pc w' := Solo.head (c := c) hs h

theorem endsIn_send (hfcm : Documented fcm verdict) {tokens : List String} (hsome : tokens ≠ []) :
    EndsIn cfg message memberUserIds preview roomTitle w (.send tokens)
      (push cfg fcm (toTokens message preview roomTitle tokens) w).world := by
  -- FCM names the tokens of which `verdict` says so
  let invalid := tokens.filter fun token => unregistered (verdict token)
  let c : Choice := { keys := invalid }
  have hkeys : tokens.filter (c.keys.contains ·) = invalid := by
    refine List.filter_congr fun token htoken => Bool.eq_iff_iff.2 ?_
    rw [List.contains_iff_mem, List.mem_filter]
    exact and_iff_right htoken
  have hne : tokens.isEmpty = false := by simpa using hsome
  by_cases henabled : cfg.fcmEnabled = true
  · by_cases hmany : 500 < tokens.length
    · rw [push_refused henabled hfcm hmany]
      refine EndsIn.step (c := c) ?_ .refl
      simp [handleStep, sendToTokens, henabled, hne, hmany]
    · have hanswer := hfcm.order (toTokens message preview roomTitle tokens) hsome
        (Nat.not_lt.1 hmany)
      have hsend : handleStep cfg c message preview roomTitle w (.send tokens) =
          some ({ w with pushed := w.pushed ++ [toTokens message preview roomTitle tokens] },
            if invalid.isEmpty then .handled else .purge invalid) := by
        simp only [handleStep, sendToTokens, henabled, hne, hmany, hkeys, Bool.not_true,
          Bool.or_self, Bool.false_eq_true, if_false]
        rfl
      have hpush : (push cfg fcm (toTokens message preview roomTitle tokens) w).world =
          if invalid.isEmpty then
            { w with pushed := w.pushed ++ [toTokens message preview roomTitle tokens] }
          else { w with
            pushed := w.pushed ++ [toTokens message preview roomTitle tokens]
            db.pushTokens :=
              w.db.pushTokens.deleteWhere fun t => invalid.contains t.fcmToken } := by
        simp only [push, henabled, hanswer, invalidTokens_map]
        simp only [toTokens, hne]
        rfl
      rw [hpush]
      refine EndsIn.step hsend ?_
      split
      · exact .refl
      · exact EndsIn.step (c := c) rfl .refl
  · rw [Bool.not_eq_true] at henabled
    have hpush : push cfg fcm (toTokens message preview roomTitle tokens) w = { world := w } := by
      simp [push, henabled]
    rw [hpush]
    refine EndsIn.step (c := c) ?_ .refl
    simp [handleStep, sendToTokens, henabled]

theorem endsIn_tokens (hfcm : Documented fcm verdict) (users : List String) :
    EndsIn cfg message memberUserIds preview roomTitle w (.tokens users)
      (push cfg fcm (toTokens message preview roomTitle (userTokens w.db users)) w).world := by
  by_cases hnone : userTokens w.db users = []
  · rw [hnone, push_nil rfl]
    refine EndsIn.step (c := {}) ?_ .refl
    simp [handleStep, hnone]
  · refine EndsIn.step (c := {}) ?_ (endsIn_send hfcm hnone)
    simp [handleStep, hnone]

theorem endsIn_afterOnline (hfcm : Documented fcm verdict) (offline : List String) :
    EndsIn cfg message memberUserIds preview roomTitle w (afterOnline offline)
      (push cfg fcm (toTokens message preview roomTitle
        (userTokens w.db (offline.filter (!isMuted w message.roomId ·)))) w).world := by
  cases offline with
  | nil =>
    rw [List.filter_nil, userTokens_nil, push_nil rfl]
    exact .refl
  | cons u offline =>
    by_cases hnone : (u :: offline).filter (!isMuted w message.roomId ·) = []
    · rw [hnone, userTokens_nil, push_nil rfl]
      refine EndsIn.step (c := {}) ?_ .refl
      simp only [afterOnline, handleStep, hnone, List.isEmpty_nil, if_true]
    · refine EndsIn.step (c := {}) ?_ (endsIn_tokens hfcm _)
      simp only [afterOnline, handleStep, List.isEmpty_iff, hnone, if_false]

/-- The recipients are asked for one by one, until an answer fails. -/
theorem endsIn_online {todo offline : List String} {w' : World} (htodo : todo ≠ [])
    (hfails : todo.mapM (Presence.isOnline w) = none → w' = w)
    (hends : (∀ u ∈ todo, (Presence.isOnline w u).isSome) →
      EndsIn cfg message memberUserIds preview roomTitle w
        (afterOnline (offline ++ todo.filter (Presence.isOnline w · == some false))) w') :
    EndsIn cfg message memberUserIds preview roomTitle w (.online todo offline) w' := by
  induction todo generalizing offline with
  | nil => exact absurd rfl htodo
  | cons u todo ih =>
    cases ho : Presence.isOnline w u with
    | none =>
      rw [hfails (by simp [List.mapM_cons, ho])]
      refine EndsIn.step (c := {}) ?_ .refl
      simp [handleStep, ho]
    | some online =>
      have hask : handleStep cfg {} message preview roomTitle w (.online (u :: todo) offline) =
          some (w, if todo.isEmpty then afterOnline (if online then offline else offline ++ [u])
            else .online todo (if online then offline else offline ++ [u])) := by
        simp only [handleStep, ho]
      have hmore : ∀ rest : List String, (if online then offline else offline ++ [u]) ++
          rest.filter (Presence.isOnline w · == some false) =
          offline ++ (u :: rest).filter (Presence.isOnline w · == some false) := by
        intro rest
        cases online <;> simp [ho]
      have hall : (∀ x ∈ todo, (Presence.isOnline w x).isSome) →
          ∀ x ∈ u :: todo, (Presence.isOnline w x).isSome := by
        intro h x hx
        rcases List.mem_cons.1 hx with rfl | hx
        · rw [ho]
          rfl
        · exact h x hx
      refine EndsIn.step hask ?_
      cases todo with
      | nil =>
        have hlast := hends (hall (by simp))
        rw [← hmore, List.filter_nil, List.append_nil] at hlast
        exact hlast
      | cons v todo =>
        refine ih (List.cons_ne_nil v todo) (fun h => hfails ?_) fun h => ?_
        · simp [List.mapM_cons (a := u), ho, h]
        · rw [hmore]
          exact hends (hall h)

/-- **The function is what the listener does.** Alone, it comes from its start to its end and leaves
the state that `onMessageCreated` says. -/
theorem onMessageCreated_runs (hfcm : Documented fcm verdict) :
    EndsIn cfg message memberUserIds preview roomTitle w
      (start (.onMessageCreated message memberUserIds preview roomTitle))
      (onMessageCreated cfg fcm message memberUserIds preview roomTitle w).world := by
  by_cases ht : message.type = .SYSTEM
  · simp only [start, onMessageCreated, ht, true_or, if_true]
    exact .refl
  · cases hr : recipientIds message memberUserIds with
    | nil =>
      simp only [start, onMessageCreated, ht, hr, or_true, if_true, if_false]
      exact .refl
    | cons u users =>
      have hstart : start (.onMessageCreated message memberUserIds preview roomTitle) =
          .online (u :: users) [] := by
        simp only [start, ht, hr, if_false]
      rw [hstart]
      refine endsIn_online (List.cons_ne_nil u users) (fun hnone => ?_) fun hp => ?_
      · simp [onMessageCreated, ht, hr, hnone]
      · rw [onMessageCreated_eq ht (hr ▸ hp), multicastOf, targets_eq, hr, List.nil_append]
        exact endsIn_afterOnline hfcm _

end Listener

/-! ### A group of any size -/

/-- The name of a user, and of his device. -/
def userName (i : Nat) : String := String.ofList (List.replicate i 'x')

theorem userName_inj {i j : Nat} (h : userName i = userName j) : i = j := by
  have hlength := congrArg String.length h
  simpa [userName] using hlength

def deviceOf (i : Nat) : PushToken :=
  { id := userName i, userId := userName i, fcmToken := userName i, platform := "ios" }

theorem compatible_deviceOf {i j : Nat} (h : i ≠ j) : Compatible (deviceOf i) (deviceOf j) := by
  intro c _
  have hne : userName i ≠ userName j := fun he => h (userName_inj he)
  cases c <;> simpa [Row.clash, deviceOf] using hne

/-- `n` users with a device each, all offline. -/
def worldOf (n : Nat) : World where
  db.pushTokens := ⟨(List.range n).map deviceOf,
    List.pairwise_map.2 (List.nodup_range.imp compatible_deviceOf)⟩

def groupOf (n : Nat) : List String := "a" :: (List.range n).map userName

/-- A text of `a`. -/
def textA : SerializedMessage :=
  { id := "m1", roomId := "r1", senderId := "a", seq := 1, type := .TEXT, content := some "hi",
    mediaId := none, replyToId := none, clientMessageId := none, createdAt := 0, editedAt := none,
    deletedAt := none }

theorem isOnline_worldOf (n : Nat) (u : String) :
    Presence.isOnline (worldOf n) u = some false := rfl

theorem devices_worldOf (n : Nat) :
    devices (worldOf n) textA (groupOf n) = (List.range n).map deviceOf := by
  refine List.filter_eq_self.2 fun row hrow => ?_
  obtain ⟨i, hi, rfl⟩ := List.mem_map.1 hrow
  have hne : userName i ≠ "a" := by
    intro h
    have hchars := congrArg String.toList h
    cases i <;> simp [userName, List.replicate_succ] at hchars
  have hmember : userName i ∈ groupOf n := List.mem_cons_of_mem _ (List.mem_map_of_mem hi)
  simp only [isTarget, deviceOf, isOnline_worldOf, List.contains_iff_mem, hmember, textA, hne,
    Bool.and_eq_true, bne_iff_ne, ne_eq, not_false_eq_true, true_and, and_true]
  exact ⟨by simp, rfl⟩

/-- FCM knows every token but `x`. -/
def verdictX (token : String) : SendResponse :=
  if token = "x" then ⟨false, some "messaging/registration-token-not-registered"⟩ else ⟨true, none⟩

def fcmX : Fcm := fun m => if 500 < m.tokens.length then none else some (m.tokens.map verdictX)

theorem fcmX_documented : Documented fcmX verdictX where
  limit _ h := if_pos h
  order _ _ h := if_neg (Nat.not_lt.2 h)

theorem push_reaches_two : Reaches verdictX (worldOf 2) textA (groupOf 2)
    (onMessageCreated {} fcmX textA (groupOf 2) "hi" "a" (worldOf 2)) := by
  refine (push_reaches {} fcmX verdictX (worldOf 2) textA (groupOf 2) "hi" "a" rfl fcmX_documented
    (by decide) fun u _ => by rw [isOnline_worldOf]; rfl).2 ?_
  rw [devices_worldOf]
  decide

/-- **A large group gets no push.** With 501 recipients FCM refuses the call, and nobody hears of
it. -/
theorem push_lost : ¬ ∀ (cfg : AppConfig) (fcm : Fcm) (verdict : String → SendResponse) (w : World)
    (message : SerializedMessage) (memberUserIds : List String) (preview roomTitle : String),
    cfg.fcmEnabled = true → Documented fcm verdict → message.type ≠ .SYSTEM →
    (∀ u ∈ recipientIds message memberUserIds, (Presence.isOnline w u).isSome) →
    Reaches verdict w message memberUserIds
      (onMessageCreated cfg fcm message memberUserIds preview roomTitle w) := by
  intro h
  have hpresence : ∀ u ∈ recipientIds textA (groupOf 501),
      (Presence.isOnline (worldOf 501) u).isSome := fun u _ => by rw [isOnline_worldOf]; rfl
  refine not_reaches_of_many rfl fcmX_documented (by decide) hpresence ?_
    (h {} fcmX verdictX (worldOf 501) textA (groupOf 501) "hi" "a" rfl
      fcmX_documented (by decide) hpresence)
  rw [devices_worldOf, List.length_map, List.length_range]
  decide

end Intaktok.Push
