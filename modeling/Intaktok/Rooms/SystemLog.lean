import Mathlib.Data.List.Forall2
import Intaktok.Rooms.GroupChanges
import Intaktok.Rooms.Ownership
import Intaktok.Realtime.SystemMessages
/-
# Does the SYSTEM log match what has changed?

A request on a group writes first and creates its system messages afterwards, one by one.
`Recording` follows it through the writes to the plan of what it is going to say, `Posting` from
there to the rows of the log. A request that runs alone has described what has become different if
it has set nothing to what it was and made nobody owner in passing (`log_matches`); one that gives a
member the role he has announces it all the same (`unchanged_announced`).
-/

namespace Intaktok.Rooms

open Interleave Tables Messages
open Realtime (Carries plainJson plainJson_parse)

/-! ## The log -/

/-- A SYSTEM message of `a` in the room, with the payload. -/
structure Says (json : Json) (r a : String) (m : Message) (payload : SystemMessagePayload) :
    Prop where
  room : m.roomId = r
  sender : m.senderId = a
  type : m.type = .SYSTEM
  carries : Carries json m payload
  actor : actor payload = a

/-- Nothing but the room has changed, and the new messages describe how. -/
structure LogMatches (json : Json) (w w' : World) (r a : String) : Prop where
  others : ∀ r', r' ≠ r → ¬ Affects w w' r'
  described : ∃ posted payloads, w'.db.messages.rows = w.db.messages.rows ++ posted ∧
    List.Forall₂ (Says json r a) posted payloads ∧
    Describes a (group w r) (group w' r) payloads

/-! ## From the tail to the log -/

/-- Where the creation of a system message may be. -/
def Numbering : CreatePc → Prop
  | .lookup _ | .member | .media _ | .reply _ | .winner | .done (.ok ⟨_, true⟩) => False
  | _ => True

def Task.payload : Task → Option SystemMessagePayload
  | .system _ payload => some payload
  | _ => none

/-- The system messages a request has still to create. -/
def Pc.unposted : Pc → List SystemMessagePayload
  | .tail _ (.system _ payload) todo (.system q) _ =>
    (if unstored q then [payload] else []) ++ todo.filterMap Task.payload
  | .tail _ _ todo _ _ => todo.filterMap Task.payload
  | _ => []

/-- The task says nothing, or says that `a` has done something. -/
def Task.By (a : String) : Task → Prop
  | .system b payload => b = a ∧ actor payload = a
  | _ => True

/-- A tail in the room, of tasks of `a`. -/
def Pc.Of (r a : String) : Pc → Prop
  | .tail r' task todo tp _ => r' = r ∧ (∀ t ∈ task :: todo, t.By a) ∧
      ∀ q, tp = .system q → Numbering q
  | .done _ => True
  | _ => False

/-- What a request has posted so far and what it has still to post make up the plan; or it has
failed. -/
def Posting (json : Json) (r a : String) (w₀ w : World) (plan : List SystemMessagePayload)
    (pc : Pc) : Prop :=
  (∃ e, pc = .done (.error e)) ∨ pc.Of r a ∧ ∃ posted payloads,
    w.db.messages.rows = w₀.db.messages.rows ++ posted ∧
      List.Forall₂ (Says json r a) posted payloads ∧ payloads ++ pc.unposted = plan

section Tail
variable {json : Json} {c : Choice} {r a : String} {w₀ w w' : World} {task : Task}
  {todo : List Task} {result : Option RoomView} {plan : List SystemMessagePayload}

theorem unposted_proceed :
    (proceed json r result todo).unposted = todo.filterMap Task.payload := by
  cases todo with
  | nil => rfl
  | cons task todo =>
    cases task with
    | lifecycle event recipients => cases recipients <;> rfl
    | _ => rfl

theorem of_proceed (h : ∀ t ∈ todo, t.By a) : (proceed json r result todo).Of r a := by
  cases todo with
  | nil => trivial
  | cons task todo =>
    refine ⟨rfl, h, fun q hq => ?_⟩
    cases task with
    | system b payload => cases hq; trivial
    | lifecycle event recipients => cases recipients <;> cases hq
    | view u => cases hq

variable (todo) in
/-- Nothing is posted when the tail begins. -/
theorem posting_start (hm : w.db.messages = w₀.db.messages) (h : ∀ t ∈ todo, t.By a) :
    Posting json r a w₀ w (todo.filterMap Task.payload) (proceed json r result todo) :=
  .inr ⟨of_proceed h, [], [], by rw [hm, List.append_nil], .nil, by
    rw [List.nil_append, unposted_proceed]⟩

/-- What an action on a system message does to the log. -/
inductive Logs (json : Json) (r a : String) (payload : SystemMessagePayload) (w : World)
    (q : CreatePc) (w' : World) (q' : CreatePc) : Prop
  | aside : w'.db.messages = w.db.messages → unstored q' = unstored q →
      Logs json r a payload w q w' q'
  | failed {e} : q' = .done (.error e) → Logs json r a payload w q w' q'
  | posted {m} : w'.db.messages.rows = w.db.messages.rows ++ [m] → Says json r a m payload →
      unstored q = true → unstored q' = false → Logs json r a payload w q w' q'

theorem logs_of_acts {payload : SystemMessagePayload} {q q' : CreatePc}
    (hjson : ∀ payload, json.parse (json.stringify payload) = some payload)
    (hactor : actor payload = a)
    (h : CreateActs json c (systemParams json r a payload) w q w' q') :
    Logs json r a payload w q w' q' := by
  cases h.effect with
  | redis _ h₁ h₂ => exact .aside rfl (h₂.trans h₁.symm)
  | inserted _ htype ht _ =>
    refine .posted (Table.insert_ok ht).2 ⟨rfl, rfl, ?_, ⟨_, rfl, hjson payload⟩, hactor⟩ rfl rfl
    exact (Option.some.inj htype).symm
  | noted => exact .aside rfl rfl
  | noRoom _ => exact .failed rfl
  | waiting _ => exact .aside rfl rfl
  | announced _ _ => exact .aside rfl rfl
  | unreadable _ => exact .failed rfl

theorem numbering_of_acts {payload : SystemMessagePayload} {q q' : CreatePc}
    (h : CreateActs json c (systemParams json r a payload) w q w' q') (hq : Numbering q) :
    Numbering q' := by
  cases h with
  | found _ | missed _ | notMember _ | member _ | notOwned _ | owned _ | noTarget _ | target _ =>
    exact hq.elim
  | winner _ | noWinner _ => exact hq.elim
  | keyTaken hk _ => cases hk
  | resyncSet => split <;> trivial
  | @fetch dto got got' _ =>
    rcases emitCreated_cases json dto got' w with ⟨h, -⟩ | ⟨_, _, _, h⟩ | h <;> rw [h] <;> trivial
  | _ => trivial

variable (json r result) in
theorem unposted_afterCreate {payload : SystemMessagePayload} {q : CreatePc} (hq : Numbering q)
    (hby : ∀ t ∈ Task.system a payload :: todo, t.By a) :
    (∃ e, afterCreate json r (.system a payload) todo result q = .done (.error e)) ∨
      (afterCreate json r (.system a payload) todo result q).Of r a ∧
        (afterCreate json r (.system a payload) todo result q).unposted =
          (if unstored q then [payload] else []) ++ todo.filterMap Task.payload := by
  have htodo : ∀ t ∈ todo, t.By a := fun t ht => hby t (List.mem_cons_of_mem _ ht)
  cases q with
  | done x =>
    cases x with
    | ok res =>
      obtain ⟨dto, alreadyThere⟩ := res
      cases alreadyThere with
      | true => exact hq.elim
      | false => exact .inr ⟨of_proceed htodo, unposted_proceed⟩
    | error e => exact .inl ⟨e, rfl⟩
  | _ => exact .inr ⟨⟨rfl, hby, fun q' hq' => by cases hq'; exact hq⟩, rfl⟩

/-- One action on the system message that is being created. -/
theorem posting_system {payload : SystemMessagePayload} {q q' : CreatePc}
    (hjson : ∀ payload, json.parse (json.stringify payload) = some payload)
    (h : Posting json r a w₀ w plan (.tail r (.system a payload) todo (.system q) result))
    (hacts : CreateActs json c (systemParams json r a payload) w q w' q') :
    Posting json r a w₀ w' plan (afterCreate json r (.system a payload) todo result q') := by
  obtain ⟨e, he⟩ | ⟨⟨-, hby, hq⟩, posted, payloads, hrows, hsaid, hplan⟩ := h
  · cases he
  have hactor : actor payload = a := (hby _ List.mem_cons_self).2
  obtain hfailed | ⟨hof, hunposted⟩ := unposted_afterCreate json r result
    (numbering_of_acts hacts (hq q rfl)) hby
  · exact .inl hfailed
  cases logs_of_acts hjson hactor hacts with
  | aside hm hun =>
    exact .inr ⟨hof, posted, payloads, by rw [hm, hrows], hsaid, by
      rw [hunposted, hun]; exact hplan⟩
  | @failed e he => exact .inl ⟨e, by rw [he]; rfl⟩
  | @posted m hm hsay hbefore hafter =>
    refine .inr ⟨hof, posted ++ [m], payloads ++ [payload], ?_,
      List.rel_append hsaid (.cons hsay .nil), ?_⟩
    · rw [hm, hrows, List.append_assoc]
    · rw [hunposted, if_neg (by simp [hafter]), ← hplan, Pc.unposted, if_pos hbefore]
      simp

theorem posting_tail {r' : String} {tp : TailPc} {pc' : Pc}
    (hjson : ∀ payload, json.parse (json.stringify payload) = some payload)
    (h : Posting json r a w₀ w plan (.tail r' task todo tp result))
    (hs : tailStep json c r' task todo result w tp = some (w', pc')) :
    Posting json r a w₀ w' plan pc' := by
  obtain ⟨e, he⟩ | ⟨⟨rfl, hby, hq⟩, posted, payloads, hrows, hsaid, hplan⟩ := id h
  · cases he
  have htodo : ∀ t ∈ todo, t.By a := fun t ht => hby t (List.mem_cons_of_mem _ ht)
  have hquiet : ∀ {w₁ : World} {pc : Pc}, payloads ++ todo.filterMap Task.payload = plan →
      w₁.db.messages = w.db.messages → pc.Of r' a → pc.unposted = todo.filterMap Task.payload →
      Posting json r' a w₀ w₁ plan pc := fun hplan hm hof hunposted =>
    .inr ⟨hof, posted, payloads, by rw [hm, hrows], hsaid, by rw [hunposted, hplan]⟩
  cases move_of_tailStep hs with
  | @created b payload _ _ _ hacts =>
    obtain rfl : b = a := (hby _ List.mem_cons_self).1
    exact posting_system hjson h hacts
  | addressed | shows _ | views _ => exact hquiet hplan rfl ⟨rfl, hby, by rintro q ⟨⟩⟩ rfl
  | emitted _ | viewed _ => exact hquiet hplan rfl (of_proceed htodo) unposted_proceed
  | unshown _ | unviewed _ => exact .inl ⟨_, rfl⟩

/-- At the end everything is posted. -/
theorem Posting.posted {x : Option RoomView} (h : Posting json r a w₀ w plan (.done (.ok x))) :
    ∃ posted, w.db.messages.rows = w₀.db.messages.rows ++ posted ∧
      List.Forall₂ (Says json r a) posted plan := by
  obtain ⟨e, he⟩ | ⟨-, posted, payloads, hrows, hsaid, hplan⟩ := h
  · cases he
  · rw [show (Pc.done (.ok x)).unposted = [] from rfl, List.append_nil] at hplan
    exact ⟨posted, hrows, hplan ▸ hsaid⟩

end Tail

/-! ## From the write to the tail -/

/-- Where a lone request of `a` on the group `r` is: it has failed, or has said nothing yet, or it
has done what it does and is saying so. -/
inductive Recording (json : Json) (r a : String) (w₀ w : World) (call : Call) (pc : Pc) : Prop
  | failed {e} : pc = .done (.error e) → Recording json r a w₀ w call pc
  | writing : past pc = false → w.db.messages = w₀.db.messages →
      (∀ head existing todo added, pc = .write head existing todo added →
        Added (group w₀ r).crew (group w r).crew added) → Recording json r a w₀ w call pc
  | posting {plan} : Effected a (group w₀ r) (group w r) (.inl call) plan →
      Posting json r a w₀ w plan pc → Recording json r a w₀ w call pc

theorem Added.nil (f : String → Option RoomMember) : Added f f [] :=
  ⟨.nil, by simp, by simp, fun _ _ => rfl⟩

theorem Added.join {f f' : String → Option RoomMember} {added : List String} {u : String}
    (h : Added f f' added) (hu : f' u = none) (m : RoomMember) :
    Added f (Function.update f' u (some m)) (added ++ [u]) := by
  have hnot : u ∉ added := fun hin => h.present u hin hu
  refine ⟨List.nodup_append.2 ⟨h.nodup, by simp, fun v hv x hx => ?_⟩, fun v hv => ?_,
    fun v hv => ?_, fun v hv => ?_⟩
  · rintro rfl
    exact hnot (List.mem_singleton.1 hx ▸ hv)
  · rcases List.mem_append.1 hv with hv | hv
    · exact h.absent v hv
    · rw [List.mem_singleton.1 hv, ← h.others u hnot, hu]
  · by_cases hvu : v = u
    · simp [hvu]
    · rw [Function.update_of_ne hvu]
      exact h.present v (by simpa [hvu] using hv)
  · simp only [List.mem_append, List.mem_singleton, not_or] at hv
    rw [Function.update_of_ne hv.2]
    exact h.others v hv.1

section Requests
variable {json : Json} {c : Choice} {r a : String} {w₀ w w' : World} {pc pc' : Pc}

theorem recording_orFail {call : Call} {α : Type} {x : Except AppException α} {next : α → Pc}
    (h : ∀ y, x = .ok y → Recording json r a w₀ w call (next y)) :
    Recording json r a w₀ w call (orFail x next) :=
  orFail_rule h fun _ _ => .failed rfl

/-- Before its writes a request has said nothing. -/
theorem recording_reading {call : Call} (hmsg : w.db.messages = w₀.db.messages)
    (hp : past pc = false)
    (hno : ∀ head existing todo added, pc ≠ .write head existing todo added) :
    Recording json r a w₀ w call pc :=
  .writing hp hmsg fun head existing todo added hpc => absurd hpc (hno head existing todo added)

theorem recording_nextWrite {ids : List String} {head : Nat} {existing : List RoomMember}
    {todo added : List String} (hmsg : w.db.messages = w₀.db.messages)
    (hface : face w.db r = face w₀.db r)
    (h : Added (group w₀ r).crew (group w r).crew added) :
    Recording json r a w₀ w (.addMembers r a ids)
      (nextWrite json r a head existing todo added) := by
  unfold nextWrite
  split
  · have hplan : (if added.isEmpty then [] else [SystemMessagePayload.memberJoined a added]) =
        (if added.isEmpty then [.view a] else [.lifecycle .ROOM_UPDATED .active,
          .system a (.memberJoined a added), .view a]).filterMap Task.payload := by
      split <;> rfl
    refine .posting (.added hface h) ?_
    rw [hplan]
    refine posting_start _ hmsg fun t ht => ?_
    split at ht <;> simp only [List.mem_cons, List.not_mem_nil, or_false] at ht
    · rw [ht]; trivial
    · rcases ht with rfl | rfl | rfl
      · trivial
      · exact ⟨rfl, rfl⟩
      · trivial
  · refine .writing rfl hmsg fun head existing todo added hpc => ?_
    cases hpc
    exact h

theorem recording_addMembers {ids : List String}
    (hmid : Midway (roster w₀) (.addMembers r a ids) w pc)
    (hmsg : w.db.messages = w₀.db.messages)
    (hadded : ∀ head existing todo added, pc = .write head existing todo added →
      Added (group w₀ r).crew (group w r).crew added)
    (hs : addStep json r a ids w pc = some (w', pc')) :
    Recording json r a w₀ w' (.addMembers r a ids) pc' := by
  have hface : past pc = false → face w.db r = face w₀.db r := fun hp =>
    face_of_stubs (hmid.rooms hp) r
  cases pc <;> simp only [addStep] at hs
  case guard => cases hs; exact recording_orFail fun _ _ => recording_reading hmsg rfl (by simp)
  case room role =>
    cases hs
    exact recording_orFail fun _ _ => recording_orFail fun _ _ =>
      recording_reading hmsg rfl (by simp)
  case activeUsers =>
    cases hs
    exact recording_orFail fun _ _ => recording_reading hmsg rfl (by simp)
  case head => cases hs; exact recording_reading hmsg rfl (by simp)
  case existing n =>
    cases hs
    have hsame : w.db.roomMembers = w₀.db.roomMembers :=
      congrArg Roster.members (hmid.reads rfl (by simp) (by simp) (by simp)).1
    refine recording_nextWrite hmsg (hface rfl) ?_
    rw [group, group, hsame]
    exact .nil _
  case write head existing todo added =>
    split at hs
    · cases hs
    rename_i u todo
    split at hs <;> cases hs
    · rename_i t hj
      obtain ⟨x, -, hcrew⟩ := crew_joinMember hj
      refine recording_nextWrite hmsg (hface rfl) ?_
      have h := (hadded _ _ _ _ rfl).join hmid.joins x
      show Added _ (crew t r) _
      rw [hcrew]
      exact h
    · exact .failed rfl
  all_goals cases hs

theorem given_of_setRole {t : Table RoomMember} {u : String} {role : MemberRole}
    {m ma : RoomMember} (hset : setRole w₀.db.roomMembers r a u role = some t) (hne : u ≠ a)
    (hm : crew w₀.db.roomMembers r u = some m) (ha : crew w₀.db.roomMembers r a = some ma)
    (hface : face w.db r = face w₀.db r) :
    Given a u role m ma (group w₀ r) (group { w with db.roomMembers := t } r) := by
  have hcrew := crew_setRole hset hne
  rw [hm, ha] at hcrew
  refine ⟨hface, ?_, ?_, fun v hu hv => ?_⟩
  · show crew t r u = _
    rw [hcrew]
    split <;> simp [hne, MemberData.apply]
  · show crew t r a = _
    rw [hcrew]
    split <;> simp [hne.symm, ha, MemberData.apply]
  · show crew t r v = _
    rw [hcrew]
    split <;> simp [hu, hv, group]

theorem recording_updateMemberRole {u : String} {role : MemberRole}
    (hmid : Midway (roster w₀) (.updateMemberRole r a u role) w pc)
    (hmsg : w.db.messages = w₀.db.messages)
    (hs : roleStep json r a u role w pc = some (w', pc')) :
    Recording json r a w₀ w' (.updateMemberRole r a u role) pc' := by
  cases pc <;> simp only [roleStep] at hs
  case guard => cases hs; exact recording_orFail fun _ _ => recording_reading hmsg rfl (by simp)
  case room actorRole =>
    cases hs
    exact recording_orFail fun _ _ => recording_orFail fun _ _ =>
      recording_reading hmsg rfl (by simp)
  case target actorRole type =>
    cases hs
    split
    · split
      · exact .failed rfl
      · split
        · exact .failed rfl
        · exact recording_reading hmsg rfl (by simp)
    · exact .failed rfl
  case setRole =>
    split at hs <;> cases hs
    · rename_i t hset
      obtain ⟨hw, -, ⟨ma, hma, howner⟩, hne, m, hm⟩ := hmid.reads rfl (by simp) (by simp) (by simp)
      have hsame : w.db.roomMembers = w₀.db.roomMembers := congrArg Roster.members hw
      have hface : face w.db r = face w₀.db r := face_of_stubs (congrArg Roster.rooms hw) r
      rw [hsame] at hset
      refine .posting (.role hm hma howner (given_of_setRole hset hne hm hma hface))
        (posting_start [.system a (.roleChanged a u role), .lifecycle .ROOM_UPDATED .active,
          .view a] hmsg ?_)
      simp [Task.By, actor]
    · exact .failed rfl
  all_goals cases hs

/-- The owner has left, and there is nobody to succeed him. -/
theorem effected_deserted (hd : Departed (roster w₀) r a w.db.roomMembers)
    (hnone : ∀ v, crew w.db.roomMembers r v = none) (hface : face w.db r = face w₀.db r) :
    Effected a (group w₀ r) (group w r) (.inl (.removeMember r a a)) [.memberLeft a] := by
  obtain ⟨m, hm, -⟩ := hd.owner
  refine .deserted hm (fun v hv => ?_) (congrArg₂ Group.mk hface hd.crew_eq)
  have hv' := congrFun hd.crew_eq v
  rw [hnone v, Function.update_of_ne hv] at hv'
  exact hv'.symm

/-- The owner has left, and whom `transferOwnership` has picked is owner. -/
theorem effected_succeeded {next : RoomMember} {t : Table RoomMember}
    (hd : Departed (roster w₀) r a w.db.roomMembers) (he : Elected w.db.roomMembers r next)
    (hu : updateMember w.db.roomMembers r next.userId { role := some .OWNER } = some t)
    (hface : face w.db r = face w₀.db r) :
    Effected a (group w₀ r) (group { w with db.roomMembers := t } r) (.inl (.removeMember r a a))
      [.memberLeft a] := by
  obtain ⟨m, hm, howner⟩ := hd.owner
  obtain ⟨hne, hthere⟩ := he.stays (G := group w₀ r) hd.crew_eq
  have hcrew := crew_change hu rfl
  rw [he.active, hd.crew_eq] at hcrew
  exact .succeeded hm howner hne hthere (he.unsucceeded hd.crew_eq)
    (congrArg₂ Group.mk hface hcrew)

theorem recording_afterRemoval {u : String}
    (hmsg : w.db.messages = w₀.db.messages)
    (h : Effected a (group w₀ r) (group w r) (.inl (.removeMember r a u))
      [if u = a then .memberLeft a else .memberKicked a u]) :
    Recording json r a w₀ w (.removeMember r a u) (afterRemoval json r a u .GROUP) := by
  refine .posting h ?_
  rw [afterRemoval, if_pos rfl]
  refine posting_start [.system a (if u = a then .memberLeft a else .memberKicked a u),
    .lifecycle .ROOM_UPDATED (.activeAnd u)] hmsg ?_
  simp only [List.mem_cons, List.not_mem_nil, or_false, forall_eq_or_imp, forall_eq]
  refine ⟨⟨rfl, ?_⟩, trivial⟩
  split <;> rfl

theorem recording_removeMember {u : String} (hgroup : HasType w₀.db r .GROUP)
    (hmid : Midway (roster w₀) (.removeMember r a u) w pc)
    (hmsg : w.db.messages = w₀.db.messages)
    (hs : removeStep json c r a u w pc = some (w', pc')) :
    Recording json r a w₀ w' (.removeMember r a u) pc' := by
  have hface : past pc = false → face w.db r = face w₀.db r := fun hp =>
    face_of_stubs (hmid.rooms hp) r
  cases pc <;> simp only [removeStep] at hs
  case guard => cases hs; exact recording_orFail fun _ _ => recording_reading hmsg rfl (by simp)
  case room role =>
    cases hs
    split
    · exact .failed rfl
    · exact recording_reading hmsg rfl (by simp)
  case target role type =>
    cases hs
    split
    · split
      · exact .failed rfl
      · exact recording_orFail fun _ _ => recording_reading hmsg rfl (by simp)
    · exact .failed rfl
  case leave type role =>
    split at hs <;> cases hs
    · rename_i t hu
      split
      · exact recording_reading hmsg rfl (by simp)
      · rename_i hown
        obtain ⟨hw, htype, -, m, -, hm, rfl, -⟩ := hmid.reads rfl (by simp) (by simp) (by simp)
        obtain rfl : type = .GROUP := HasType.unique htype hgroup
        have hsame : w.db.roomMembers = w₀.db.roomMembers := congrArg Roster.members hw
        rw [hsame] at hu
        exact recording_afterRemoval hmsg
          (.left hm (fun ho => hown ⟨ho, rfl⟩) (congrArg₂ Group.mk (hface rfl) (crew_leave hu)))
    · exact .failed rfl
  case candidates =>
    split at hs
    · rename_i hc
      simp only [Bool.and_eq_true, decide_eq_true_eq, List.isPerm_iff] at hc
      cases hs
      split
      · exact recording_reading hmsg rfl (by simp)
      · rename_i hn
        obtain ⟨rfl, hd⟩ := hmid.leaves
        refine recording_afterRemoval hmsg ?_
        rw [if_pos rfl]
        exact effected_deserted hd (crew_none_of_successor hc.1 hn) (hface rfl)
    · cases hs
  case promote v =>
    split at hs <;> cases hs
    · rename_i t hu
      obtain ⟨rfl, hd, next, rfl, he⟩ := hmid.names
      refine recording_afterRemoval hmsg ?_
      rw [if_pos rfl]
      exact effected_succeeded hd he hu (hface rfl)
    · exact .failed rfl
  all_goals cases hs

end Requests

/-! ## Whole requests -/

theorem group_kept {w w' : World} (h : Kept w w') (r : String) : group w' r = group w r :=
  congrArg₂ Group.mk (face_of_stubs h.rooms r) (by rw [h.members])

/-- A request that is about one group leaves the others alone. -/
theorem Effect.elsewhere {S S' : Roster} {call : Call} {r a : String} (h : Effect S call S')
    (hk : groupOf (.inl call) = some (r, a)) :
    S'.rooms = S.rooms ∧ Elsewhere r S.members S'.members := by
  cases h with
  | unchanged => exact ⟨rfl, fun _ _ => Iff.rfl⟩
  | direct | group | reopened => cases hk
  | joined _ _ hj => cases hk; exact ⟨rfl, hj.elsewhere⟩
  | role _ _ _ _ hset => cases hk; exact ⟨rfl, elsewhere_setRole hset⟩
  | left _ _ _ _ _ hu => cases hk; exact ⟨rfl, elsewhere_updateMember hu⟩
  | deserted hd _ => cases hk; exact ⟨rfl, hd.elsewhere⟩
  | succeeded hd _ hu => cases hk; exact ⟨rfl, hd.elsewhere.trans (elsewhere_updateMember hu)⟩

theorem Effect.others {w w' : World} {call : Call} {r a : String}
    (h : Effect (roster w) call (roster w')) (hk : groupOf (.inl call) = some (r, a)) (r' : String)
    (hr : r' ≠ r) : ¬ Affects w w' r' := by
  obtain ⟨hrooms, helse⟩ := h.elsewhere hk
  exact not_affects (face_of_stubs hrooms r') (Elsewhere.row helse hr)

/-- Where a lone `updateRoom` is. -/
def UpdateRecording (json : Json) (r a : String) (dto : UpdateRoomDto) (w₀ w : World) :
    UpdatePc → Prop
  | .guard | .room _ => Untouched w₀ w
  | .avatar room _ | .update room =>
    Untouched w₀ w ∧ face w₀.db r = some (room.name, room.avatarMediaId)
  | .after pc => (∃ e, pc = .done (.error e)) ∨ (∀ r', r' ≠ r → ¬ Affects w₀ w r') ∧
      ∃ plan, Effected a (group w₀ r) (group w r) (.inr (.updateRoom r a dto)) plan ∧
        Posting json r a w₀ w plan pc

theorem face_of_requireGroup {db : Db} {r : String} {room : Room}
    (h : requireGroup db r = .ok room) : face db r = some (room.name, room.avatarMediaId) := by
  unfold requireGroup at h
  split at h
  · cases h
  · rename_i x hf
    split at h <;> cases h
    rw [face, hf]
    rfl

theorem face_updateRooms {w : World} {r : String} {dto : UpdateRoomDto}
    {f : Option String × Option String} (h : face w.db r = some f) :
    face { w.db with rooms := updateRooms w.db.rooms r dto } r =
      some (dto.name.getD f.1, dto.avatarMediaId.getD f.2) := by
  obtain ⟨x, hx, rfl⟩ := Option.map_eq_some_iff.1 h
  obtain rfl : x.id = r := beq_iff_eq.1 (Table.find_some hx).2
  simp only [face, updateRooms]
  rw [Table.find_updateWhere w.db.rooms (·.id == x.id) (·.id == x.id) dto.apply _ fun _ => rfl, hx]
  simp [UpdateRoomDto.apply]

section Runs
variable {cfg : AppConfig} {json : Json} {c : Choice} {r a : String} {w₀ w w' : World}

theorem recording_step {call : Call} {pc pc' : Pc}
    (hjson : ∀ payload, json.parse (json.stringify payload) = some payload)
    (hk : groupOf (.inl call) = some (r, a)) (hgroup : HasType w₀.db r .GROUP)
    (hmid : Midway (roster w₀) call w pc) (h : Recording json r a w₀ w call pc)
    (hs : step json c call w pc = some (w', pc')) : Recording json r a w₀ w' call pc' := by
  cases h with
  | failed he =>
    subst he
    cases call <;> cases hs
  | writing hp hmsg hadded =>
    unfold step at hs
    split at hs
    · cases hp
    · cases call with
      | createRoom creatorId dto => cases hk
      | addMembers r a ids => cases hk; exact recording_addMembers hmid hmsg hadded hs
      | updateMemberRole r a u role => cases hk; exact recording_updateMemberRole hmid hmsg hs
      | removeMember r a u => cases hk; exact recording_removeMember hgroup hmid hmsg hs
  | posting heff hpost =>
    cases pc with
    | tail r' task todo tp result =>
      have hs' : tailStep json c r' task todo result w tp = some (w', pc') := hs
      rw [← group_kept (tail_step hs').1 r] at heff
      exact .posting heff (posting_tail hjson hpost hs')
    | done x => cases call <;> cases hs
    | _ =>
      obtain ⟨e, he⟩ | ⟨hof, -⟩ := hpost
      · cases he
      · exact hof.elim

theorem posting_afterUpdate {dto : UpdateRoomDto} {room : Room}
    (hmsg : w.db.messages = w₀.db.messages) :
    Posting json r a w₀ w (updatePayloads a dto room.name) (afterUpdate json r a dto room) := by
  unfold afterUpdate updatePayloads
  cases dto.name with
  | none => cases dto.avatarMediaId <;> exact posting_start _ hmsg (by simp [Task.By, actor])
  | some name =>
    by_cases hname : name = room.name
    · simp only [if_pos hname]
      cases dto.avatarMediaId <;> exact posting_start _ hmsg (by simp [Task.By, actor])
    · simp only [if_neg hname]
      cases dto.avatarMediaId <;> exact posting_start _ hmsg (by simp [Task.By, actor])

theorem updateRecording_step {dto : UpdateRoomDto} {pc pc' : UpdatePc}
    (hjson : ∀ payload, json.parse (json.stringify payload) = some payload)
    (h : UpdateRecording json r a dto w₀ w pc)
    (hs : updateStep json c r a dto w pc = some (w', pc')) :
    UpdateRecording json r a dto w₀ w' pc' := by
  cases pc <;> simp only [updateStep] at hs
  case guard =>
    cases hs
    split
    · exact .inl ⟨_, rfl⟩
    · exact h
  case room role =>
    cases hs
    split
    · exact .inl ⟨_, rfl⟩
    · rename_i room hgroup
      split
      · exact .inl ⟨_, rfl⟩
      · have hw : Untouched w₀ w := h
        rw [hw.db] at hgroup
        unfold afterChecks
        split <;> exact ⟨hw, face_of_requireGroup hgroup⟩
  case avatar room i =>
    cases hs
    split
    · exact .inl ⟨_, rfl⟩
    · exact h
  case update room =>
    obtain ⟨hw, hface⟩ := h
    split at hs <;> cases hs
    · refine .inr ⟨(within_updateRooms hw r dto).others, _, .updated hface ?_, ?_⟩
      · rw [← hw.db] at hface
        refine congrArg₂ Group.mk (face_updateRooms hface) ?_
        show crew w.db.roomMembers r = _
        rw [hw.db]
        rfl
      · exact posting_afterUpdate (show w.db.messages = _ by rw [hw.db])
    · exact .inl ⟨_, rfl⟩
  case after pc =>
    cases pc with
    | tail r' task todo tp result =>
      obtain ⟨⟨w₁, pc₁⟩, ht, he⟩ := Option.map_eq_some_iff.1 hs
      cases he
      obtain ⟨e, he⟩ | ⟨hothers, plan, heff, hpost⟩ := h
      · cases he
      have hk := (tail_step ht).1
      rw [← group_kept hk r] at heff
      exact .inr ⟨fun r' hr ha => hothers r' hr (hk.affects.1 ha), plan, heff,
        posting_tail hjson hpost ht⟩
    | _ => cases hs

/-- Where a lone request of `a` on the group `r` is. -/
def Recorded (json : Json) (r a : String) (w₀ w : World) : RoomsCall → ChatPc → Prop
  | .inl call, .inr (.inl pc) =>
    Midway (roster w₀) call w pc ∧ Recording json r a w₀ w call pc
  | .inr (.updateRoom _ _ dto), .inr (.inr pc) => UpdateRecording json r a dto w₀ w pc
  | _, _ => False

theorem recorded_start {k : RoomsCall} (hk : groupOf k = some (r, a)) :
    Recorded json r a w w k ((chat cfg json).start (.inr k)) := by
  rcases k with call | ⟨r', a', dto⟩
  · cases call with
    | createRoom creatorId dto => cases hk
    | _ => exact ⟨.reading rfl (knows_start _ _), .writing rfl rfl (by rintro _ _ _ _ ⟨⟩)⟩
  · exact Untouched.refl w

theorem recorded_step {k : RoomsCall} {pc pc' : ChatPc}
    (hjson : ∀ payload, json.parse (json.stringify payload) = some payload)
    (hk : groupOf k = some (r, a)) (hgroup : HasType w₀.db r .GROUP)
    (h : Recorded json r a w₀ w k pc)
    (hs : (chat cfg json).step c (.inr k) w pc = some (w', pc')) :
    Recorded json r a w₀ w' k pc' := by
  cases acts_of_chat hs with
  | room hroom =>
    exact ⟨midway_step h.1 hroom, recording_step hjson hk hgroup h.1 h.2 hroom⟩
  | update hupdate =>
    cases hk
    exact updateRecording_step hjson h hupdate

theorem recorded_tick {k : RoomsCall} {pc : ChatPc} (h : Recorded json r a w₀ w k pc) (ms : Nat) :
    Recorded json r a w₀ (w.tick ms) k pc := by
  unfold Recorded at h ⊢
  split at h
  · refine ⟨h.1.congr rfl, ?_⟩
    cases h.2 with
    | failed he => exact .failed he
    | writing hp hmsg hadded => exact .writing hp hmsg hadded
    | posting heff hpost => exact .posting heff hpost
  · rename_i pc
    cases pc with
    | guard | room => exact Untouched.tick h ms
    | avatar | update => exact ⟨Untouched.tick h.1 ms, h.2⟩
    | after pc => exact h
  · exact h.elim

/-- At its end a request has done something and said so. -/
theorem recorded_end {k : RoomsCall} {pc : ChatPc} (hk : groupOf k = some (r, a))
    (h : Recorded json r a w₀ w k pc) (hok : outcome pc = some (.ok ())) :
    (∀ r', r' ≠ r → ¬ Affects w₀ w r') ∧ ∃ posted payloads,
      w.db.messages.rows = w₀.db.messages.rows ++ posted ∧
        List.Forall₂ (Says json r a) posted payloads ∧
        Effected a (group w₀ r) (group w r) k payloads := by
  unfold Recorded at h
  split at h
  · rename_i call pc
    cases pc with
    | done x =>
      cases x with
      | error e => cases hok
      | ok res =>
        refine ⟨h.1.effect.others hk, ?_⟩
        cases h.2 with
        | failed he => cases he
        | writing hp _ _ => cases hp
        | posting heff hpost =>
          obtain ⟨posted, hrows, hsaid⟩ := hpost.posted
          exact ⟨posted, _, hrows, hsaid, heff⟩
    | _ => cases hok
  · rename_i pc
    cases hk
    cases pc with
    | after pc =>
      cases pc with
      | done x =>
        cases x with
        | error e => cases hok
        | ok res =>
          obtain ⟨e, he⟩ | ⟨hothers, plan, heff, hpost⟩ := h
          · cases he
          · obtain ⟨posted, hrows, hsaid⟩ := hpost.posted
            exact ⟨hothers, posted, plan, hrows, hsaid, heff⟩
      | _ => cases hok
    | _ => cases hok
  · exact h.elim

/-- A message says one thing. -/
theorem says_rightUnique : Relator.RightUnique (Says json r a) := by
  intro m p p' h h'
  obtain ⟨content, hc, hp⟩ := h.carries
  obtain ⟨content', hc', hp'⟩ := h'.carries
  rw [hc] at hc'
  cases hc'
  exact Option.some.inj (hp.symm.trans hp')

/-- **The SYSTEM log matches what has changed**, but of what is set to what it is and of a
succession. A request on a group that runs alone and succeeds leaves every other room alone, and its
system messages say what has become different of the group, each thing once, if and only if a given
avatar is not the one the room has, a given role not the one the member has, and whoever leaves no
owner whose departure makes another member owner. -/
theorem log_matches (cfg : AppConfig) (json : Json) (k : RoomsCall) (r a : String) (w : World)
    {w' : World} {pc : ChatPc}
    (hjson : ∀ payload, json.parse (json.stringify payload) = some payload)
    (hk : groupOf k = some (r, a)) (hgroup : HasType w.db r .GROUP)
    (h : Solo (chat cfg json) (.inr k) w ((chat cfg json).start (.inr k)) w' pc)
    (hok : outcome pc = some (.ok ())) :
    LogMatches json w w' r a ↔ Sincere (group w r) k := by
  have hrec := h.invariant (fun w' pc => Recorded json r a w w' k pc) (recorded_start hk)
    (recorded_step hjson hk hgroup) fun ms _ _ hI => recorded_tick hI ms
  obtain ⟨hothers, posted, payloads, hrows, hsaid, heff⟩ := recorded_end hk hrec hok
  rw [← describes_iff heff]
  constructor
  · rintro ⟨-, posted', payloads', hrows', hsaid', hdescribes⟩
    obtain rfl : posted' = posted := List.append_cancel_left (hrows'.symm.trans hrows)
    rwa [List.right_unique_forall₂' says_rightUnique hsaid hsaid']
  · exact fun hdescribes => ⟨hothers, posted, payloads, hrows, hsaid, hdescribes⟩

end Runs

/-! ### A role given -/

theorem groupR1_hasType : HasType groupR1.db "r1" .GROUP :=
  ⟨_, List.mem_singleton_self _, rfl, rfl⟩

/-- `a` gives `b` a role. -/
def giveRole (role : MemberRole) : RoomsCall := .inl (.updateMemberRole "r1" "a" "b" role)

/-- From the guard to the view. -/
def giving : List (Move Unit Choice Nat) := turns () 8 ++ announce () "m1" 5

/-- `b` takes over from `a`, and the log says so. -/
theorem log_matches_transfer : ∃ w' pc, Solo (chat {} plainJson) (.inr (giveRole .OWNER)) groupR1
      ((chat {} plainJson).start (.inr (giveRole .OWNER))) w' pc ∧
    outcome pc = some (.ok ()) ∧ LogMatches plainJson groupR1 w' "r1" "a" := by
  have hexec : ((chat {} plainJson).exec always (fun _ : Unit => .inr (giveRole .OWNER))
      ((chat {} plainJson).initial (fun _ => .inr (giveRole .OWNER)) groupR1) giving).any (fun P =>
        outcome (P.pcs ()) == some (.ok ())) = true := by decide
  obtain ⟨P, hrun, hP⟩ := Machine.exec_reaches_free hexec
  have hok := beq_iff_eq.1 hP
  refine ⟨P.shared, P.pcs (), hrun.solo, hok, (log_matches {} plainJson (giveRole .OWNER) "r1" "a"
    groupR1 plainJson_parse rfl groupR1_hasType hrun.solo hok).2 fun m hm => ?_⟩
  cases hm
  decide

/-- Where nothing has changed, nothing is said. -/
theorem LogMatches.silent {json : Json} {w w' : World} {r a : String}
    (h : LogMatches json w w' r a) (hsame : group w' r = group w r) :
    w'.db.messages.rows = w.db.messages.rows := by
  obtain ⟨posted, payloads, hrows, hsaid, hdescribes⟩ := h.described
  rw [hsame] at hdescribes
  cases hsaid with
  | nil => rw [hrows, List.append_nil]
  | @cons m payload =>
    obtain ⟨x, hx⟩ := List.exists_mem_of_ne_nil _ (hdescribes.each payload List.mem_cons_self)
    have hchanged := (hdescribes.exact x).1
      (List.mem_flatMap.2 ⟨payload, List.mem_cons_self, hx⟩)
    obtain ⟨havatar, hname⟩ := hchanged.not_face rfl
    obtain rfl | ⟨name, rfl⟩ := hchanged.not_crew rfl
    · exact absurd rfl havatar
    · exact absurd rfl (hname name)

/-- **A message of no change.** `a` makes `b` the member he is. -/
theorem unchanged_announced : ¬ ∀ (cfg : AppConfig) (json : Json) (k : RoomsCall) (r a : String)
    (w w' : World) (pc : ChatPc),
    (∀ payload, json.parse (json.stringify payload) = some payload) →
    groupOf k = some (r, a) → HasType w.db r .GROUP →
    Solo (chat cfg json) (.inr k) w ((chat cfg json).start (.inr k)) w' pc →
    outcome pc = some (.ok ()) → LogMatches json w w' r a := by
  intro h
  have hexec : ((chat {} plainJson).exec always (fun _ : Unit => .inr (giveRole .MEMBER))
      ((chat {} plainJson).initial (fun _ => .inr (giveRole .MEMBER)) groupR1) giving).any (fun P =>
        outcome (P.pcs ()) == some (.ok ()) && face P.shared.db "r1" == face groupR1.db "r1" &&
          P.shared.db.roomMembers.rows == groupR1.db.roomMembers.rows &&
          P.shared.db.messages.rows.length == 1) = true := by decide
  obtain ⟨P, hrun, hP⟩ := Machine.exec_reaches_free hexec
  simp only [Bool.and_eq_true, beq_iff_eq] at hP
  obtain ⟨⟨⟨hok, hface⟩, hmembers⟩, hone⟩ := hP
  have hsame : group P.shared "r1" = group groupR1 "r1" := by
    refine congrArg₂ Group.mk hface ?_
    funext u
    unfold crew Table.find
    rw [hmembers]
  have hsilent := (h {} plainJson (giveRole .MEMBER) "r1" "a" groupR1 P.shared (P.pcs ())
    plainJson_parse rfl groupR1_hasType hrun.solo hok).silent hsame
  rw [hsilent] at hone
  cases hone

end Intaktok.Rooms
