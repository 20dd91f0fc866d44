import Intaktok.Http.Footprints
import Intaktok.Realtime.Doors
import Intaktok.Realtime.Grounds
/-
# From a message back to a token

Who is named as the sender of a message has asked for it: by a request his token came with, or by
the event of a socket that had been authenticated with a token of his; and he has been found among
the members of the room on the way (`senders_by_token`). A socket nobody is behind sends nothing
(`nobody_run`).
-/

namespace Intaktok.Http

open Interleave Tables Realtime
open Messages (CreatePc CreateMessageParams)

/-! ## Events of a socket -/

section Step
variable {d : Deps} {c : Choice} {h h' : Hub}

/-- The route that leads to the creation of a message. -/
theorem route_of_create {d : Deps} {req : Request} {p : CreateMessageParams}
    (h : req.handler d = .serve .messages (.createMessage p)) : ∃ sent,
      req.route = .message sent ∧ sent.roomId = p.roomId ∧ req.userId d = p.senderId := by
  obtain ⟨bearer, route⟩ := req
  cases route <;> simp only [Request.handler, Route.handler] at h
  case message req =>
    cases req <;> cases h
    exact ⟨_, rfl, rfl, rfl⟩
  all_goals first | cases h | (split at h <;> cases h)

/-- What a call of a client creates is no notice. -/
theorem client_of_call {d : Deps} {k : FrontCall} {p : CreateMessageParams}
    (h : k.call d = .inr ⟨.messages, .createMessage p⟩) : p.isSystem = false := by
  obtain ⟨req, -, hhandler⟩ := http_of_call h (by decide)
  obtain ⟨bearer, route⟩ := req
  cases route <;> simp only [Request.handler, Route.handler] at hhandler
  case message req =>
    cases req <;> cases hhandler
    rfl
  all_goals first | cases hhandler | (split at hhandler <;> cases hhandler)

/-- The message `y` of a client is there, or one that differs in what an unsending erases. -/
def Stored (y : Message) (s : Site) : Prop :=
  ∃ x ∈ s.hub.world.db.messages.rows, x.id = y.id ∧ x.roomId = y.roomId ∧
    x.senderId = y.senderId ∧ x.type = y.type

/-- A message of a client comes to be by the `insert` of a creation for its sender. -/
theorem creation_of_stored {c : FrontChoice} {k : FrontCall} {s s' : Site} {l l' : FrontPc}
    {y : Message} (hs : (front d).step c k s l = some (s', l')) (hno : ¬ Stored y s)
    (hyes : Stored y s') (ht : y.type ≠ .SYSTEM) :
    ∃ p a seq, creation d.json (k.call d) (behind d k l) = some (p, .insert a seq) ∧
      p.isSystem = false ∧ p.roomId = y.roomId ∧ p.senderId = y.senderId := by
  obtain ⟨x, hx, hid, hroom, hsender, htype⟩ := hyes
  rcases (fronts d).step hs with ⟨hsame, -⟩ | ⟨c', hback⟩
  · exact absurd ⟨x, hsame ▸ hx, hid, hroom, hsender, htype⟩ hno
  cases alters_of_step hback with
  | same hrows => exact absurd ⟨x, hrows ▸ hx, hid, hroom, hsender, htype⟩ hno
  | @inserted p a seq type hk hptype hrows =>
    rw [hrows] at hx
    rcases List.mem_append.1 hx with hx | hx
    · exact absurd ⟨x, hx, hid, hroom, hsender, htype⟩ hno
    obtain rfl := List.mem_singleton.1 hx
    refine ⟨p, a, seq, hk, ?_, hroom, hsender⟩
    cases hsys : p.isSystem with
    | false => rfl
    | true =>
      obtain ⟨r, actorId, payload, rfl⟩ :=
        systemParams_of_creation (fun _ => client_of_call) hk hsys
      cases hptype
      exact absurd htype.symm ht
  | unsent _ hrows =>
    rw [hrows] at hx
    obtain ⟨z, hz, rfl⟩ := List.mem_map.1 hx
    refine absurd ⟨z, hz, ?_⟩ hno
    split at hid <;> rename_i h <;> simp only [h, if_true] at hroom hsender htype
    · exact ⟨hid, hroom, hsender, htype⟩
    · exact ⟨hid, hroom, hsender, htype⟩

end Step

/-! ## Runs -/

section Runs
variable {ι : Type} [DecidableEq ι] (d : Deps) (D : Discipline Site FrontCall FrontPc)
  (calls : ι → FrontCall) (P : Pool Site FrontPc ι)

/-- A handshake of the socket has held a token of the user. -/
def Presented (id u : String) (R : Pool Site FrontPc ι) : Prop :=
  ∃ j hs, calls j = .socket (.inl (.connect id hs)) ∧ Met (front d) D calls P
    (fun S => Realtime.Presents d.cfg d.decode hs S.shared.hub.world u) R

/-- On whose word `i` sends a message of `u`. -/
inductive SentBy (u roomId : String) (R : Pool Site FrontPc ι) (i : ι) : Prop
  | request {req : Request} {sent : Realtime.Request} : calls i = .http req →
      req.route = .message sent → sent.roomId = roomId → req.userId d = u →
      InTurn (front d) D calls P (req.checks d) R → SentBy u roomId R i
  | event {id body} : calls i = .socket (.inr (.messageSend id body)) →
      ((body.getD {}).params (some u)).roomId = roomId →
      -- as the event came in the socket was his
      Acted (front d) D calls P i (fun S =>
        behind d (calls i) (S.pcs i) = .inl (.inr (.send .received)) ∧
        (S.shared.hub.sockets id).userId = some u ∧ Presented d D calls P id u S) R →
      SentBy u roomId R i

variable {d D calls} {site : Site} {Q R : Pool Site FrontPc ι} {i : ι} {id u roomId : String}

theorem Presented.later (h : Presented d D calls ((front d).initial calls site) id u R)
    (hrun : Run (front d) D calls R Q) :
    Presented d D calls ((front d).initial calls site) id u Q := by
  obtain ⟨j, hs, hcall, hmet⟩ := h
  exact ⟨j, hs, hcall, hmet.trans hrun⟩

/-- A socket is somebody by a token of his. -/
theorem presented_run (hquiet : (site.hub.sockets id).userId = none)
    (hrun : Run (front d) D calls ((front d).initial calls site) Q)
    (hu : (Q.shared.hub.sockets id).userId = some u) :
    Presented d D calls ((front d).initial calls site) id u Q := by
  refine hrun.invariant (fun R => ∀ u, (R.shared.hub.sockets id).userId = some u →
    Presented d D calls ((front d).initial calls site) id u R) ?_ ?_ ?_ u hu
  · intro u hu
    cases hquiet.symm.trans hu
  · intro R j c s' l' hr hI ha hs u hu
    have hmove := Run.refl.move ha hs
    by_cases hbefore : (R.shared.hub.sockets id).userId = some u
    · exact (hI u hbefore).later hmove
    refine Presented.later ?_ hmove
    rcases (fronts d).step hs with ⟨hsame, -⟩ | ⟨c', hback⟩
    · rw [hsame] at hu
      exact absurd hu hbefore
    obtain ⟨handshake, hcall, hpc, -⟩ := becomes_of_step hback hbefore hu
    refine ⟨j, handshake, socket_of_call hcall, ?_⟩
    refine (fronts d).passed hr
      (p := fun k l => k = .inl (.inl (.connect id handshake)) ∧
        l = .inl (.inl (.connect (.user u))))
      (φ := fun _ h _ => Realtime.Presents d.cfg d.decode handshake h.world u) ?_ ?_ j ⟨hcall, hpc⟩
    · rintro _ ⟨rfl, hstart⟩
      cases hstart
    · rintro c k h l h' _ hs ⟨rfl, rfl⟩
      exact .inr (.inl (presents_of_step hs))
  · intro R e hI u hu
    have hsock : ((front d).env e R.shared).hub.sockets id = R.shared.hub.sockets id :=
      congrFun (sockets_env d.cfg e R.shared.hub) id
    exact (hI u (hsock ▸ hu)).later (Run.refl.env e)

/-- The event of a socket past the member check has been sent by somebody, whose token the socket
had held. -/
theorem event_sentBy {body : Option SendPayload} {userId : Option String} {pc : CreatePc}
    (hquiet : ∀ id, (site.hub.sockets id).userId = none)
    (hrun : Run (front d) D calls ((front d).initial calls site) Q)
    (hcall : calls i = .socket (.inr (.messageSend id body)))
    (hpc : behind d (calls i) (Q.pcs i) = .inl (.inr (.send (.createMessage userId pc))))
    (hpast : unvalidated pc = false) :
    SentBy d D calls ((front d).initial calls site) (userId.getD "")
      ((body.getD {}).params userId).roomId Q i := by
  have hback : (calls i).call d = .inl (.inr (.messageSend id body)) := by rw [hcall]; rfl
  cases userId with
  | none =>
    have hnobody := nobody_run ((fronts d).run_initial hrun) hback hpc
    rw [hpast] at hnobody
    cases hnobody
  | some u =>
    have hacted := (fronts d).acted hrun
      (p := fun k l => k = .inl (.inr (.messageSend id body)) ∧
        ∃ pc, l = .inl (.inr (.send (.createMessage (some u) pc))))
      (φ := fun _ h l => l = .inl (.inr (.send .received)) ∧ (h.sockets id).userId = some u)
      (by rintro _ ⟨rfl, _, hstart⟩; cases hstart) ?_ i ⟨hback, pc, hpc⟩
    · exact .event hcall rfl (hacted.imp fun S h₁ hS =>
        ⟨hS.1, hS.2, presented_run (hquiet id) h₁ hS.2⟩)
    · rintro c k h l h' _ hs ⟨rfl, pc', rfl⟩
      exact (sender_of_step hs).symm.imp_left fun hbefore => ⟨rfl, hbefore⟩

/-- A creation that is about to store the message of a client has been asked for by its sender. -/
theorem sentBy_of_creation {p : CreateMessageParams} {a seq : Nat}
    (hquiet : ∀ id, (site.hub.sockets id).userId = none)
    (hrun : Run (front d) D calls ((front d).initial calls site) Q)
    (hk : creation d.json ((calls i).call d) (behind d (calls i) (Q.pcs i)) =
      some (p, .insert a seq)) (hsys : p.isSystem = false) :
    SentBy d D calls ((front d).initial calls site) p.senderId p.roomId Q i := by
  rcases client_of_creation hk hsys with ⟨id, body, userId, hcall, hl, rfl⟩ | ⟨hcall, hl⟩
  · exact event_sentBy hquiet hrun (socket_of_call hcall) hl rfl
  · obtain ⟨req, hreq, hhandler⟩ := http_of_call hcall (by decide)
    obtain ⟨sent, hroute, hroom, hsender⟩ := route_of_create hhandler
    have hcalled : (Q.pcs i).called = true := by
      refine called_of_behind (d := d) (k := calls i) fun hstart => ?_
      rw [hl, hcall] at hstart
      have hpc : CreatePc.insert a seq = Messages.createStart p :=
        Messages.Pc.create.inj (eq_of_heq (Sigma.mk.inj (Sum.inr.inj hstart)).2)
      have hpast := unvalidated_createStart hsys
      rw [← hpc] at hpast
      cases hpast
    exact .request hreq hroute hroom hsender
      (cleared_run hreq (by rw [hroute]; rfl) hrun
        (cleared_of_called (by rw [hroute]; rfl) hcalled))

/-- **Senders by token.** Whatever is in flight, on a server to which nobody has been connected at
first: who is the sender of a message that has been added has asked for it, by a request that his
token came with or by an event of a socket that was his, by a token of his, as it came in; and this
has found him a member of the room. -/
theorem senders_by_token (hquiet : ∀ id, (site.hub.sockets id).userId = none)
    (hrun : Run (front d) D calls ((front d).initial calls site) Q) {y : Message}
    (hy : y ∈ Q.shared.hub.world.db.messages.rows)
    (hno : ∀ x ∈ site.hub.world.db.messages.rows, x.id ≠ y.id) (ht : y.type ≠ .SYSTEM) :
    Brought (front d) D calls ((front d).initial calls site) (Stored y)
      (fun R i => SentBy d D calls ((front d).initial calls site) y.senderId y.roomId R i ∧
        Acted (front d) D calls ((front d).initial calls site) i (fun S =>
          Enters d.json y.roomId y.senderId ((calls i).call d) S.shared.hub
            (behind d (calls i) (S.pcs i))) R) Q := by
  refine hrun.brought ?_ ?_ ?_ ⟨y, hy, rfl, rfl, rfl, rfl⟩
  · rintro ⟨x, hx, hid, -⟩
    exact hno x hx hid
  · intro R i c s' l' hr _ hs hbefore hafter
    obtain ⟨p, a, seq, hk, hsys, hroom, hsender⟩ := creation_of_stored hs hbefore hafter ht
    rw [← hroom, ← hsender]
    refine ⟨sentBy_of_creation hquiet hr hk hsys, ?_⟩
    exact (fronts d).acted hr
      (p := Admitted d.json p.roomId p.senderId) (φ := Enters d.json p.roomId p.senderId)
      (fun k => not_admitted_of_begins (begins_start d.cfg d.decode d.json k)) admitted_of_step i
      ⟨p, _, hk, hsys, rfl, rfl, rfl⟩
  · rintro e s ⟨x, hx, hsame⟩
    rw [db_of_env] at hx
    exact ⟨x, hx, hsame⟩

end Runs

/-! ### `a` connects and writes -/

def connectAndWrite : Bool → FrontCall
  | true => .socket (.inl (.connect "sa" { token := some "a" }))
  | false => .socket (.inr (.messageSend "sa" (some
      { roomId := .str "r1", type := some .TEXT, content := .str "hi" })))

theorem senders_by_token_a : ∃ (Q : Pool Site FrontPc Bool) (y : Message),
    y ∈ Q.shared.hub.world.db.messages.rows ∧ y.senderId = "a" ∧
    Brought (front depsAB) Discipline.free connectAndWrite
      ((front depsAB).initial connectAndWrite siteAB) (Stored y)
      (fun R i => SentBy depsAB Discipline.free connectAndWrite
          ((front depsAB).initial connectAndWrite siteAB) y.senderId y.roomId R i ∧
        Acted (front depsAB) Discipline.free connectAndWrite
          ((front depsAB).initial connectAndWrite siteAB) i (fun S =>
            Enters depsAB.json y.roomId y.senderId ((connectAndWrite i).call depsAB) S.shared.hub
              (behind depsAB (connectAndWrite i) (S.pcs i))) R) Q := by
  have hexec : ((front depsAB).exec always connectAndWrite
      ((front depsAB).initial connectAndWrite siteAB)
      (plays true 3 ++ plays false 7 { id := "m1" })).any (fun Q =>
        Q.shared.hub.world.db.messages.rows.any fun y =>
          y.senderId == "a" && y.type == .TEXT) = true := by decide
  obtain ⟨Q, hrun, hQ⟩ := Machine.exec_reaches_free hexec
  obtain ⟨y, hy, hp⟩ := List.any_eq_true.1 hQ
  simp only [Bool.and_eq_true, beq_iff_eq] at hp
  exact ⟨Q, y, hy, hp.1, senders_by_token (fun _ => rfl) hrun hy (fun x hx => by cases hx)
    (by rw [hp.2]; decide)⟩

end Intaktok.Http
