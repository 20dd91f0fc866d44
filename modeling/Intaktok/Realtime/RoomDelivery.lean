import Intaktok.Realtime.PersonalRooms
import Intaktok.Realtime.Announcements
import Intaktok.Messages.Numbers
/-
# Who gets a message

`emitCreated` reads the members of the room (`messages.service.ts:339`), `onMessageCreated` sends
to their personal rooms (`realtime.gateway.ts:228`), and a socket hears what is sent to any room it
is in. In every run a socket that gets a message of a room is one of a user who was a member when
the members were read (`delivered_inside`).
-/

namespace Intaktok.Realtime

open Interleave
open Messages (CreateMessageParams CreatePc CreateActs Fetched fetchNext getActiveMemberIds
  createStart serialize)

/-- The socket hears the message in what has been emitted: Socket.IO reaches the sockets in the
union of the rooms. -/
def Receives (h h' : Hub) (s : String) (message : SerializedMessage) : Prop :=
  ∃ e ∈ h'.emitted.drop h.emitted.length, e.event = .messageNew message ∧
    (h.sockets s).connected = true ∧ ∃ r ∈ e.rooms, r ∈ (h.sockets s).rooms

/-- The process has not read the members for a message it has yet to announce. -/
def Unread (json : Messages.Json) (k : ServerCall) (l : ServerPc) : Prop :=
  ∀ p message got, creation json k l = some (p, .fetch message got) → got.memberUserIds = none

section Pool
variable {ι : Type} [DecidableEq ι] (cfg : AppConfig) (decode : String → Option Jwt)
  (json : Messages.Json) (calls : ι → ServerCall)

/-- The action of the process `i` from `Q` to `Q'` is the read of the members in the `emitCreated`
of the message. -/
def Reads (i : ι) (message : SerializedMessage) (Q Q' : Pool Hub ServerPc ι) : Prop :=
  ∃ c h' l' p got, (server cfg decode json).step c (calls i) Q.shared (Q.pcs i) = some (h', l') ∧
    Q' = ⟨h', Function.update Q.pcs i l'⟩ ∧
    creation json (calls i) (Q.pcs i) = some (p, .fetch message got) ∧
    got.memberUserIds = none ∧ c.pick = 0

/-- On the way from `P₁` to `P` the members have been read, and `u` was one. -/
def ReadAmong (D : Discipline Hub ServerCall ServerPc) (P₁ : Pool Hub ServerPc ι) (i : ι)
    (message : SerializedMessage) (u : String) (P : Pool Hub ServerPc ι) : Prop :=
  ∃ Q Q', Run (server cfg decode json) D calls P₁ Q ∧ D.allows calls Q i ∧
    Reads cfg decode json calls i message Q Q' ∧ Run (server cfg decode json) D calls Q' P ∧
    u ∈ getActiveMemberIds Q.shared.world.db message.roomId

/-- The runs in which `u` is no member of the room. -/
def Away (u r : String) : Discipline Hub ServerCall ServerPc :=
  Discipline.during fun h => u ∉ getActiveMemberIds h.world.db r

/-- What the action of `i` from `P` to `P'` sends, in a run from `P₀`, stays inside the room. -/
structure Inside (P₀ P P' : Pool Hub ServerPc ι) (i : ι) : Prop where
  personal : Sealed P.shared
  received : ∀ s message, Receives P.shared P'.shared s message →
    ∃ u, (P.shared.sockets s).userId = some u ∧
      ReadAmong cfg decode json calls Discipline.free P₀ i message u P'
  /-- Who has left before `P₁` gets nothing whose members are read from then on. -/
  departed : ∀ s message u P₁, (P.shared.sockets s).userId = some u →
    Run (server cfg decode json) Discipline.free calls P₀ P₁ →
    Unread json (calls i) (P₁.pcs i) →
    Run (server cfg decode json) (Away u message.roomId) calls P₁ P →
    u ∉ getActiveMemberIds P.shared.world.db message.roomId →
    ¬ Receives P.shared P'.shared s message

end Pool

/-! ## A creation on its way -/

theorem createStart_not_fetch {p : CreateMessageParams} {dto : SerializedMessage} {got : Fetched} :
    createStart p ≠ .fetch dto got := by
  intro h
  have hc := Messages.checking_createStart p
  rw [h] at hc
  cases hc

theorem createStart_not_roomUpdate {p : CreateMessageParams} {m : Message} :
    createStart p ≠ .roomUpdate m := by
  intro h
  have hc := Messages.checking_createStart p
  rw [h] at hc
  cases hc

/-- A creation comes to its reads from the room's update, or from one of them. -/
theorem fetch_of_acts {json : Messages.Json} {c : Choice} {p : CreateMessageParams} {w w' : World}
    {pc pc' : CreatePc} (h : CreateActs json c p w pc w' pc') {dto : SerializedMessage}
    {got' : Fetched} (hpc : pc' = .fetch dto got') :
    (∃ m, pc = .roomUpdate m ∧ dto = serialize m ∧ got' = {}) ∨
      ∃ got, pc = .fetch dto got ∧ fetchNext c p w.db got = some got' := by
  subst hpc
  cases h.effect with
  | redis _ _ hpc => cases hpc
  | noted => exact .inl ⟨_, rfl, rfl, rfl⟩
  | waiting hf => exact .inr ⟨_, rfl, hf⟩

/-- Another read leaves the members alone. -/
theorem members_of_fetchNext {c : Choice} {p : CreateMessageParams} {db : Db} {got got' : Fetched}
    {ids : List String} (h : fetchNext c p db got = some got')
    (hids : got'.memberUserIds = some ids) : got.memberUserIds = some ids ∨
      got.memberUserIds = none ∧ c.pick = 0 ∧ ids = getActiveMemberIds db p.roomId := by
  unfold fetchNext at h
  split at h
  · rename_i hpick
    cases h
    cases hids
    exact .inr ⟨rfl, hpick, rfl⟩
  · cases h; exact .inl hids
  · cases h; exact .inl hids
  · cases h

/-- What a creation has stored is of the room of its request. -/
def OfRoom (q : Option (CreateMessageParams × CreatePc)) : Prop :=
  ∀ p, (∀ m, q = some (p, .roomUpdate m) → m.roomId = p.roomId) ∧
    ∀ dto got, q = some (p, .fetch dto got) → dto.roomId = p.roomId

theorem Begins.ofRoom {q : Option (CreateMessageParams × CreatePc)} (h : Begins q) : OfRoom q := by
  intro p
  constructor
  · intro m hq
    obtain ⟨p', hp, -⟩ := h p _ hq
    exact absurd hp.symm createStart_not_roomUpdate
  · intro dto got hq
    obtain ⟨p', hp, -⟩ := h p _ hq
    exact absurd hp.symm createStart_not_fetch

theorem OfRoom.step {cfg : AppConfig} {decode : String → Option Jwt} {json : Messages.Json}
    {c : Choice} {h h' : Hub} {k : ServerCall} {l l' : ServerPc} (ho : OfRoom (creation json k l))
    (hs : (server cfg decode json).step c k h l = some (h', l')) :
    OfRoom (creation json k l') := by
  rcases creation_step hs with hb | ⟨p, pc, w', pc', hk, hacts, hl'⟩
  · exact hb.ofRoom
  · intro p₁
    rw [hl']
    constructor
    · rintro m ⟨⟩
      obtain ⟨a, seq, -, -, hcr⟩ := hacts.origin
      obtain ⟨type, t, -, rfl, -⟩ := Messages.createRow_ok hcr
      rfl
    · rintro dto got ⟨⟩
      rcases fetch_of_acts hacts rfl with ⟨m, rfl, rfl, -⟩ | ⟨got₀, rfl, -⟩
      · exact (ho p).1 m hk
      · exact (ho p).2 dto got₀ hk

/-! ## Runs -/

section Runs
variable {ι : Type} [DecidableEq ι] {cfg : AppConfig} {decode : String → Option Jwt}
  {json : Messages.Json} {calls : ι → ServerCall} {hub : Hub} {P₁ P Q : Pool Hub ServerPc ι}

/-- The members the process knows it has read since `P₁`. -/
def ReadSince (cfg : AppConfig) (decode : String → Option Jwt) (json : Messages.Json)
    (calls : ι → ServerCall) (D : Discipline Hub ServerCall ServerPc) (P₁ : Pool Hub ServerPc ι)
    (i : ι) (P : Pool Hub ServerPc ι) : Prop :=
  ∀ p message got ids, creation json (calls i) (P.pcs i) = some (p, .fetch message got) →
    got.memberUserIds = some ids →
    ∀ u ∈ ids, ReadAmong cfg decode json calls D P₁ i message u P

variable {D : Discipline Hub ServerCall ServerPc} {i : ι} {c : Choice} {h' : Hub} {l' : ServerPc}

theorem ofRoom_run (ho : OfRoom (creation json (calls i) (P₁.pcs i)))
    (hrun : Run (server cfg decode json) D calls P₁ P) :
    OfRoom (creation json (calls i) (P.pcs i)) := by
  refine hrun.invariant (fun Q => OfRoom (creation json (calls i) (Q.pcs i))) ho ?_ fun e hI => hI
  intro Q j c h' l' _ hI _ hs
  by_cases hij : i = j
  · subst hij
    simpa using hI.step hs
  · simpa [Function.update_of_ne hij] using hI

theorem ReadAmong.trans {message : SerializedMessage} {u : String}
    (h : ReadAmong cfg decode json calls D P₁ i message u P)
    (hrun : Run (server cfg decode json) D calls P Q) :
    ReadAmong cfg decode json calls D P₁ i message u Q := by
  obtain ⟨R, R', h₁, ha, hreads, h₂, hu⟩ := h
  exact ⟨R, R', h₁, ha, hreads, h₂.trans hrun, hu⟩

/-- After a read of the process, whom it knows it has read since `P₁`. -/
theorem readAmong_of_fetch {p : CreateMessageParams} {message : SerializedMessage}
    {got got' : Fetched} {ids : List String} {u : String}
    (ho : OfRoom (creation json (calls i) (P.pcs i)))
    (hrun : Run (server cfg decode json) D calls P₁ P) (ha : D.allows calls P i)
    (hI : ReadSince cfg decode json calls D P₁ i P)
    (hs : (server cfg decode json).step c (calls i) P.shared (P.pcs i) = some (h', l'))
    (hk : creation json (calls i) (P.pcs i) = some (p, .fetch message got))
    (hf : fetchNext c p P.shared.world.db got = some got') (hids : got'.memberUserIds = some ids)
    (hu : u ∈ ids) :
    ReadAmong cfg decode json calls D P₁ i message u ⟨h', Function.update P.pcs i l'⟩ := by
  rcases members_of_fetchNext hf hids with hold | ⟨hnone, hpick, rfl⟩
  · exact (hI p message got ids hk hold u hu).trans (Run.refl.move ha hs)
  · rw [← (ho p).2 message got hk] at hu
    exact ⟨P, _, hrun, ha, ⟨c, h', l', p, got, hs, rfl, hk, hnone, hpick⟩, .refl, hu⟩

theorem readSince_run (ho : OfRoom (creation json (calls i) (P₁.pcs i)))
    (hun : Unread json (calls i) (P₁.pcs i)) (hrun : Run (server cfg decode json) D calls P₁ P) :
    ReadSince cfg decode json calls D P₁ i P := by
  refine hrun.invariant (ReadSince cfg decode json calls D P₁ i) ?_ ?_ ?_
  · intro p message got ids hk hids
    rw [hun p message got hk] at hids
    cases hids
  · intro Q j c h' l' hr hI ha hs p message got ids hk hids u hu
    by_cases hij : i = j
    · subst hij
      simp only [Function.update_self] at hk
      rcases creation_step hs with hb | ⟨p₀, pc, w', pc', hk₀, hacts, hl'⟩
      · obtain ⟨p', hp, -⟩ := hb p _ hk
        exact absurd hp.symm createStart_not_fetch
      · rw [hl'] at hk
        cases hk
        rcases fetch_of_acts hacts rfl with ⟨m, -, -, rfl⟩ | ⟨got₀, rfl, hf⟩
        · cases hids
        · exact readAmong_of_fetch (ofRoom_run ho hr) hr ha hI hs hk₀ hf hids hu
    · simp only [Function.update_of_ne hij] at hk
      exact (hI p message got ids hk hids u hu).trans (Run.refl.move ha hs)
  · intro Q e hI p message got ids hk hids u hu
    exact (hI p message got ids hk hids u hu).trans (Run.refl.env e)

/-- Whoever hears a message is one of those read. -/
theorem readAmong_of_receives (hS : Sealed P.shared)
    (ho : OfRoom (creation json (calls i) (P₁.pcs i))) (hun : Unread json (calls i) (P₁.pcs i))
    (hrun : Run (server cfg decode json) D calls P₁ P) (ha : D.allows calls P i)
    (hs : (server cfg decode json).step c (calls i) P.shared (P.pcs i) = some (h', l'))
    {s : String} {message : SerializedMessage} (hrec : Receives P.shared h' s message) :
    ∃ u, (P.shared.sockets s).userId = some u ∧
      ReadAmong cfg decode json calls D P₁ i message u ⟨h', Function.update P.pcs i l'⟩ := by
  obtain ⟨e, he, hm, -, r, hre, hrs⟩ := hrec
  obtain ⟨p, got, got', ids, hk, hf, hids, hrooms⟩ := announcement hs he hm
  rw [hrooms] at hre
  obtain ⟨u, hu, rfl⟩ := List.mem_map.1 hre
  exact ⟨u, hS s u hrs, readAmong_of_fetch (ofRoom_run ho hrun) hrun ha
    (readSince_run ho hun hrun) hs hk hf hids hu⟩

variable (cfg decode json) in
/-- **Messages stay in their room.** From a server on which nobody is connected, in every run, what
an action sends as `message:new` is heard by sockets of members only, as `emitCreated` has read
them, and not by those of users who had left before. -/
theorem delivered_inside (hc : Cuids hub.world.db) (hnew : Fresh hub) (hone : OneHandshake calls)
    (hrun : Run (server cfg decode json) Discipline.free calls
      ((server cfg decode json).initial calls hub) P)
    (hs : (server cfg decode json).step c (calls i) P.shared (P.pcs i) = some (h', l')) :
    Inside cfg decode json calls ((server cfg decode json).initial calls hub) P
      ⟨h', Function.update P.pcs i l'⟩ i := by
  have hS : Sealed P.shared := sealed_run hc hnew hone hrun
  have hb := begins_start cfg decode json (calls i)
  refine ⟨hS, fun s message => ?_, fun s message u P₁ hsu h₁ hun h₂ hout hrec => ?_⟩
  · refine readAmong_of_receives hS hb.ofRoom (fun p message got hk => ?_) hrun
      (Discipline.free_allows calls P i) hs
    obtain ⟨p', hp, -⟩ := hb p _ hk
    exact absurd hp.symm createStart_not_fetch
  · obtain ⟨v, hv, Q, Q', -, haway, -, -, hin⟩ := readAmong_of_receives hS
      (ofRoom_run hb.ofRoom h₁) hun h₂ ⟨hout, fun _ _ => trivial⟩ hs hrec
    rw [hsu] at hv
    cases hv
    exact haway.1 hin

end Runs

/-! ### A member and one who has left -/

def tokenAccess (u : String) : Jwt := ⟨"change-me-access", u, .access, "", 1800⟩

def hubTokens : Hub where
  world := { Messages.worldR1 with issued := [tokenAccess "a", tokenAccess "b"] }

/-- `a` and `b` connect, `b` joins the room by hand and leaves it, `a` writes. -/
inductive Part where
  | connectA | connectB | joinB | leaveB | writeA
deriving DecidableEq

def leaveAndWrite : Part → ServerCall
  | .connectA => .inl (.inl (.connect "sa" { token := some "a" }))
  | .connectB => .inl (.inl (.connect "sb" { token := some "b" }))
  | .joinB => .inl (.inr (.roomJoin "sb" (.str "r1")))
  | .leaveB => .inr ⟨.rooms, .removeMember "r1" "b" "b"⟩
  | .writeA => .inr ⟨.messages, Messages.say "a"⟩

abbrev serverAB : Machine Hub ServerCall ServerPc Choice Env :=
  server {} (fun u => some (tokenAccess u)) Messages.noJson

def steps (i : Part) (n : Nat) (c : Choice := {}) : List (Move Part Choice Env) :=
  List.replicate n (.step i c)

def awayOk (P : Pool Hub ServerPc Part) (_ : Part) : Bool :=
  !(getActiveMemberIds P.shared.world.db "r1").contains "b"

theorem awayOk_allows {P : Pool Hub ServerPc Part} {i : Part} (h : awayOk P i = true) :
    (Away "b" "r1").allows leaveAndWrite P i :=
  ⟨fun hin => by simp [awayOk, hin] at h, fun _ _ => trivial⟩

/-- The socket hears a message of `r1`. -/
def hears (h h' : Hub) (s : String) : Bool :=
  (h'.emitted.drop h.emitted.length).any fun e => match e.event with
    | .messageNew m => m.roomId == "r1" && (h.sockets s).connected &&
      e.rooms.any (h.sockets s).rooms.contains
    | _ => false

theorem receives_of_hears {h h' : Hub} {s : String} (hh : hears h h' s = true) :
    ∃ message, Receives h h' s message ∧ message.roomId = "r1" := by
  obtain ⟨e, he, hm⟩ := List.any_eq_true.1 hh
  split at hm
  · rename_i m hev
    simp only [Bool.and_eq_true, beq_iff_eq, List.any_eq_true, List.contains_iff_mem] at hm
    exact ⟨m, ⟨e, he, hev, hm.1.2, hm.2⟩, hm.1.1⟩
  · cases hm

def unsent : ServerPc → Bool
  | .inr ⟨.messages, .create .member⟩ => true
  | _ => false

theorem unread_of_unsent {l : ServerPc} (h : unsent l = true) :
    Unread Messages.noJson (leaveAndWrite .writeA) l := by
  unfold unsent at h
  split at h
  · rintro p message got ⟨⟩
  · cases h

theorem leaveAndWrite_oneHandshake : OneHandshake leaveAndWrite := by
  intro i j s hs hs₂ hi hj
  cases i <;> cases hi <;> cases j <;> first | rfl | simp [leaveAndWrite] at hj

/-- `b`'s socket is in the room still, and does not hear what `a`'s hears. -/
theorem delivered_inside_ab : ∃ (P : Pool Hub ServerPc Part) (h' : Hub) (l' : ServerPc),
    Run serverAB Discipline.free leaveAndWrite (serverAB.initial leaveAndWrite hubTokens) P ∧
    serverAB.step { pick := 2 } (leaveAndWrite .writeA) P.shared (P.pcs .writeA) = some (h', l') ∧
    (∃ message, Receives P.shared h' "sa" message ∧ message.roomId = "r1") ∧
    (P.shared.sockets "sb").rooms.contains "r1" = true ∧
    ∀ message, message.roomId = "r1" → ¬ Receives P.shared h' "sb" message := by
  have hexec : (serverAB.exec always leaveAndWrite (serverAB.initial leaveAndWrite hubTokens)
      (steps .connectA 10 ++ steps .connectB 10 ++ steps .joinB 3 ++ steps .leaveB 4)).any (fun P₁ =>
        unsent (P₁.pcs .writeA) && (serverAB.exec awayOk leaveAndWrite P₁
          (steps .writeA 7 { id := "m1" } ++ steps .writeA 1 ++
            steps .writeA 1 { pick := 1 })).any fun P =>
          awayOk P .writeA && (P.shared.sockets "sb").userId == some "b" &&
          (P.shared.sockets "sb").rooms.contains "r1" &&
          (serverAB.step { pick := 2 } (leaveAndWrite .writeA) P.shared (P.pcs .writeA)).any
            fun r => hears P.shared r.1 "sa") = true := by decide
  obtain ⟨P₁, hrun₁, hP₁⟩ := Machine.exec_reaches_free hexec
  obtain ⟨hunsent, hexec₂⟩ := Bool.and_eq_true_iff.1 hP₁
  obtain ⟨P, hrun₂, hP⟩ := Machine.exec_reaches awayOk_allows hexec₂
  simp only [Bool.and_eq_true, beq_iff_eq] at hP
  obtain ⟨⟨⟨haway, hsb⟩, hr1⟩, hstep⟩ := hP
  obtain ⟨⟨h', l'⟩, hs, hhears⟩ := (Option.any_eq_true _ _).1 hstep
  have hrun := hrun₁.trans hrun₂.free
  have hin := delivered_inside {} (fun u => some (tokenAccess u)) Messages.noJson
    ⟨by decide, by decide⟩ (fun _ => ⟨rfl, rfl⟩) leaveAndWrite_oneHandshake hrun hs
  refine ⟨P, h', l', hrun, hs, receives_of_hears hhears, hr1, fun message hm => ?_⟩
  refine hin.departed "sb" message "b" P₁ hsb hrun₁ (unread_of_unsent hunsent) ?_ ?_
  · rw [hm]; exact hrun₂
  · rw [hm]; exact (awayOk_allows haway).1

end Intaktok.Realtime
