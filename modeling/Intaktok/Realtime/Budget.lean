import Intaktok.Lib.Budget
import Intaktok.Realtime.Platform
import Intaktok.Rooms.Budget
/-
# What a call may spend

One rank for each service and each event of a socket, which every action lowers. The loops of the
bootstrap and of the listener of `PushService` are bounded by what they are called with. The pages
of a `SCAN` are counted as the first and the last of them, and the `DEL`s go off in one pipeline
(`redis.service.ts:89`) and cost nothing.
-/

namespace Intaktok

open Tables Interleave

/-! ## The other services -/

@[simp] def Sweep.rank : Sweep → ℕ
  | .scan => 2
  | .scanning _ => 1
  | .deleting _ => 0

/-- A `DEL` of the pipeline is free. -/
@[simp] def Sweep.cost : Sweep → ℕ
  | .deleting _ => 0
  | _ => 1

theorem rank_sweepStep {c : Choice} {pattern : String} {w w' : World} {sw : Sweep}
    {next : Option Sweep} (h : sweepStep c pattern w sw = some (w', next)) :
    (next.map Sweep.rank).getD 0 + sw.cost ≤ sw.rank := by
  cases sw with
  | scan => cases h; simp
  | scanning atStart =>
    simp only [sweepStep] at h
    split at h <;> cases h
    split <;> simp
  | deleting keys =>
    cases keys with
    | nil => cases h; simp
    | cons k ks =>
      cases h
      split <;> simp

namespace Auth

@[simp] def Pc.rank : Pc → ℕ
  | .whitelist => 6
  | .recordRequest => 1
  | .enroll _ => 5
  | .profile _ => 4
  | .sign _ _ => 2
  | .store _ _ _ => 1
  | .verify => 6
  | .existsKey => 5
  | .user => 4
  | .del => 3
  | .revoke sweep _ => sweep.rank
  | .done _ => 0

@[simp] def Pc.cost : Pc → ℕ
  | .revoke sweep _ => sweep.cost
  | _ => 1

theorem rank_acts {cfg : AppConfig} {c : Choice} {call : Call} {w w' : World} {pc pc' : Pc}
    (h : Acts cfg c w call pc w' pc') : pc'.rank + pc.cost ≤ pc.rank := by
  cases h with
  | sweep hsw => exact rank_sweepStep hsw
  | swept hsw => exact rank_sweepStep hsw
  | _ => simp [fail]

end Auth

namespace Admin

@[simp] def Pc.rank : Pc → ℕ
  | .find => 6
  | .write _ => 5
  | .linkedUser _ => 4
  | .suspend _ _ => 3
  | .revoke _ _ sweep => sweep.rank
  | .suspendedUser _ => 2
  | .activate _ _ => 1
  | .done _ => 0

@[simp] def Pc.cost : Pc → ℕ
  | .revoke _ _ sweep => sweep.cost
  | _ => 1

theorem rank_afterWrite (dto : UpdateWhitelistDto) (existing updated : Whitelist) :
    (afterWrite dto existing updated).rank ≤ 4 := by
  unfold afterWrite
  split
  · simp
  · split <;> simp
  · split <;> simp
  · simp

theorem rank_acts {c : Choice} {id : String} {dto : UpdateWhitelistDto} {w w' : World}
    {pc pc' : Pc} (h : Acts c w id dto pc w' pc') : pc'.rank + pc.cost ≤ pc.rank := by
  cases h with
  | write => exact Nat.succ_le_succ (rank_afterWrite ..)
  | sweep hsw => exact rank_sweepStep hsw
  | swept hsw => exact rank_sweepStep hsw
  | _ => simp

@[simp] def EntryPc.rank : EntryPc → ℕ
  | .taken _ => 2
  | .insert => 1
  | .find => 2
  | .delete => 1
  | .request => 4
  | .existing _ => 3
  | .promote _ => 2
  | .drain _ => 1
  | .dismiss => 1
  | .present _ rest => 2 * rest.length + 2
  | .register _ rest => 2 * rest.length + 1
  | .done _ => 0

theorem rank_bootstrap (kakaoIds : List String) :
    (bootstrap kakaoIds).rank = 2 * kakaoIds.length := by
  cases kakaoIds with
  | nil => rfl
  | cons k rest => simp [bootstrap]; omega

theorem rank_created {w w' : World} {n : ℕ} {next : Whitelist → EntryPc} {pc : EntryPc}
    {r : Option (Except Failure (World × Whitelist))} (hn : ∀ row, (next row).rank ≤ n)
    (h : r.map (created w next) = some (w', pc)) : pc.rank ≤ n := by
  obtain ⟨r, -, he⟩ := Option.map_eq_some_iff.1 h
  rcases r with e | ⟨w₁, row⟩ <;> cases he
  · exact Nat.zero_le _
  · exact hn row

theorem rank_entryStep {c : Choice} {call : EntryCall} {w w' : World} {pc pc' : EntryPc}
    (h : entryStep c call w pc = some (w', pc')) : pc'.rank + 1 ≤ pc.rank := by
  cases pc <;> cases call <;> simp only [entryStep] at h <;> try cases h
  -- the checks before a write
  case taken.create | find.remove => split <;> simp [EntryPc.fail]
  case request.approveAccessRequest => split <;> simp [EntryPc.fail]
  case existing.approveAccessRequest =>
    split
    · simp
    · split <;> simp [EntryPc.fail]
  -- the inserts
  case insert.create | promote.approveAccessRequest =>
    exact Nat.succ_le_succ (rank_created (fun _ => le_rfl) h)
  case register.onApplicationBootstrap =>
    exact Nat.succ_le_succ (rank_created (fun _ => (rank_bootstrap _).le) h)
  -- the deletes
  case delete.remove | drain.approveAccessRequest | dismiss.dismissAccessRequest =>
    split at h <;> cases h <;> simp [EntryPc.fail]
  case present.onApplicationBootstrap =>
    split
    · rw [rank_bootstrap]; simp
    · simp

def EntryCall.load : EntryCall → ℕ
  | .onApplicationBootstrap kakaoIds => 2 * kakaoIds.length
  | _ => 0

theorem rank_entryStart (call : EntryCall) : (entryStart call).rank ≤ call.load + 4 := by
  cases call with
  | create dto invitedBy =>
    simp only [entryStart, createStart]
    split <;> simp [EntryPc.fail]
  | onApplicationBootstrap kakaoIds =>
    exact (rank_bootstrap kakaoIds).le.trans (Nat.le_add_right ..)
  | _ => exact Nat.le_of_ble_eq_true rfl

end Admin

namespace Push

@[simp] def Pc.rank : Pc → ℕ
  | .upsert => 1
  | .deleteMany => 1
  | .online todo _ => todo.length + 4
  | .muted _ => 4
  | .tokens _ => 3
  | .send _ => 2
  | .purge _ => 1
  | .done _ => 0

theorem rank_afterOnline (offline : List String) : (afterOnline offline).rank ≤ 4 := by
  unfold afterOnline
  split <;> simp [Pc.handled]

theorem rank_handleStep {cfg : AppConfig} {c : Choice} {message : SerializedMessage}
    {preview roomTitle : String} {w w' : World} {pc pc' : Pc}
    (h : handleStep cfg c message preview roomTitle w pc = some (w', pc')) :
    pc'.rank + 1 ≤ pc.rank := by
  cases pc <;> try cases h
  case online todo offline =>
    cases todo <;> cases h
    split
    · simp [Pc.handled]
    · dsimp only
      split
      · exact Nat.succ_le_succ ((rank_afterOnline _).trans (by simp))
      · simp
  case muted offline => split <;> simp [Pc.handled]
  case tokens targets => split <;> simp [Pc.handled]
  case send tokens =>
    simp only [handleStep] at h
    split at h <;> cases h
    · simp [Pc.handled]
    · split <;> simp [Pc.handled]
  case purge invalid => simp [Pc.handled]

theorem rank_step {cfg : AppConfig} {c : Choice} {call : Call} {w w' : World} {pc pc' : Pc}
    (h : step cfg c call w pc = some (w', pc')) : pc'.rank + 1 ≤ pc.rank := by
  unfold step at h
  split at h
  · unfold upsertToken at h
    split at h
    · split at h
      · cases h; simp
      · split at h
        · split at h <;> cases h
          simp
        · cases h
    · cases h; simp
  · dsimp only at h
    split at h <;> cases h <;> simp
  · exact rank_handleStep h
  · cases h

def Call.load : Call → ℕ
  | .onMessageCreated _ memberUserIds _ _ => memberUserIds.length
  | _ => 0

theorem rank_start (call : Call) : (start call).rank ≤ call.load + 4 := by
  cases call with
  | onMessageCreated message memberUserIds preview roomTitle =>
    have hlen : (recipientIds message memberUserIds).length ≤ memberUserIds.length :=
      List.length_filter_le ..
    simp only [start]
    split
    · simp [Pc.handled]
    · split
      · simp [Pc.handled]
      · rename_i hne
        simp only [Pc.rank, Call.load]
        omega
  | _ => exact Nat.le_of_ble_eq_true rfl

end Push

namespace MediaService

@[simp] def Pc.rank : Pc → ℕ
  | .create => 2
  | .uploadUrl _ => 1
  | .find => 4
  | .head _ => 3
  | .ready _ _ => 2
  | .media => 5
  | .message _ => 4
  | .avatar _ => 3
  | .roomAvatar _ => 2
  | .url _ => 1
  | .put => 1
  | .done _ => 0

theorem rank_createStep {c : Choice} {uploaderId : String} {dto : CreateUploadUrlDto}
    {w w' : World} {pc pc' : Pc} (h : createStep c uploaderId dto w pc = some (w', pc')) :
    pc'.rank + 1 ≤ pc.rank := by
  cases pc <;> simp only [createStep] at h
  case create =>
    split at h
    · cases h; simp
    · split at h
      · split at h
        · cases h
        · split at h <;> cases h <;> simp
      · cases h
  case uploadUrl media => cases h; simp
  all_goals cases h

theorem rank_completeStep {mediaId requesterId : String} {w w' : World} {pc pc' : Pc}
    (h : completeStep mediaId requesterId w pc = some (w', pc')) : pc'.rank + 1 ≤ pc.rank := by
  cases pc <;> simp only [completeStep] at h
  case find =>
    cases h
    split
    · simp [Pc.fail]
    · split <;> simp [Pc.fail]
  case head media => cases h; split <;> simp [Pc.fail]
  case ready media contentLength =>
    split at h
    · cases h; simp
    · split at h <;> cases h <;> simp
  all_goals cases h

theorem rank_getStep {mediaId requesterId : String} {w w' : World} {pc pc' : Pc}
    (h : getStep mediaId requesterId w pc = some (w', pc')) : pc'.rank + 1 ≤ pc.rank := by
  cases pc <;> simp only [getStep] at h
  case media =>
    cases h
    split
    · simp [Pc.fail]
    · split <;> simp
  case message media => cases h; split <;> simp
  case avatar media => cases h; split <;> simp
  case roomAvatar media => cases h; split <;> simp [Pc.fail]
  all_goals cases h

theorem rank_step {cfg : AppConfig} {c : Choice} {call : Call} {w w' : World} {pc pc' : Pc}
    (h : step cfg c call w pc = some (w', pc')) : pc'.rank + 1 ≤ pc.rank := by
  unfold step at h
  split at h
  · cases h; simp
  · exact rank_createStep h
  · exact rank_completeStep h
  · exact rank_getStep h
  · split at h <;> cases h
    simp
  · cases h

theorem rank_start (cfg : AppConfig) (call : Call) : (start cfg call).rank ≤ 5 := by
  cases call with
  | createUploadUrl uploaderId dto =>
    unfold start
    dsimp only
    split <;> simp [Pc.fail]
  | _ => exact Nat.le_of_ble_eq_true rfl

end MediaService

namespace ProfileService

@[simp] def Pc.rank : Pc → ℕ
  | .existing => 4
  | .avatar _ => 3
  | .write => 2
  | .resolve _ _ => 1
  | .done _ => 0

theorem rank_afterExisting (call : Call) : (afterExisting call).rank ≤ 3 := by
  unfold afterExisting
  split <;> simp

theorem rank_afterWrite (profile : Profile) : (afterWrite profile).rank ≤ 1 := by
  unfold afterWrite
  split <;> simp

theorem rank_step {cfg : AppConfig} {call : Call} {w w' : World} {pc pc' : Pc}
    (h : step cfg call w pc = some (w', pc')) : pc'.rank + 1 ≤ pc.rank := by
  unfold step at h
  split at h
  · cases h
    split <;> simp [Pc.fail]
  · cases h; simp
  · split at h
    · unfold createStep at h
      split at h
      · cases h
        split
        · simp [Pc.fail]
        · exact Nat.succ_le_succ (rank_afterExisting _)
      · split at h
        · cases h; exact Nat.succ_le_succ (rank_afterWrite _)
        · simp only at h
          split at h
          · cases h; simp
          · split at h <;> cases h
            · exact Nat.succ_le_succ (rank_afterWrite _)
            · simp
      · cases h
    · unfold updateStep at h
      split at h
      · cases h
        split
        · simp [Pc.fail]
        · exact Nat.succ_le_succ (rank_afterExisting _)
      · split at h
        · cases h; simp
        · split at h <;> cases h
          · simp
          · exact Nat.succ_le_succ (rank_afterWrite _)
      · cases h

end ProfileService

/-! ## Sockets -/

@[simp] def Presence.AddPc.rank : Presence.AddPc → ℕ
  | .sadd => 3
  | .expire => 2
  | .scard => 1
  | .done _ => 0

@[simp] def Presence.RemovePc.rank : Presence.RemovePc → ℕ
  | .srem => 4
  | .scard => 3
  | .del => 2
  | .lastSeenAt => 1
  | .done _ => 0

theorem Presence.rank_addStep {cfg : AppConfig} {userId socketId : String} {w w' : World}
    {pc pc' : AddPc} (h : addStep cfg userId socketId w pc = some (w', pc')) :
    pc'.rank + 1 ≤ pc.rank := by
  cases pc <;> simp only [addStep] at h
  case sadd => split at h <;> cases h <;> simp
  case expire => cases h; simp
  case scard => split at h <;> cases h <;> simp
  case done r => cases h

theorem Presence.rank_removeStep {userId socketId : String} {w w' : World}
    {pc pc' : RemovePc} (h : removeStep userId socketId w pc = some (w', pc')) :
    pc'.rank + 1 ≤ pc.rank := by
  cases pc <;> simp only [removeStep] at h
  case srem => split at h <;> cases h <;> simp
  case scard =>
    split at h <;> cases h
    · split <;> simp
    · simp
  case del => cases h; simp
  case lastSeenAt => cases h; simp
  case done r => cases h

namespace Realtime

@[simp] def ConnectPc.rank : ConnectPc → ℕ
  | .verify => 10
  | .user _ => 9
  | .joinUser _ => 8
  | .memberships _ => 7
  | .joinRooms _ _ => 6
  | .presence _ pc => pc.rank + 2
  | .myRooms _ => 2
  | .coMembers _ _ => 1
  | .accepted _ => 0
  | .rejected _ => 0

theorem rank_connectStep {cfg : AppConfig} {decode : String → Option Jwt} {id : String}
    {hs : Handshake} {h h' : Hub} {pc pc' : ConnectPc}
    (hstep : connectStep cfg decode id hs h pc = some (h', pc')) : pc'.rank + 1 ≤ pc.rank := by
  cases pc <;> simp only [connectStep] at hstep
  case verify =>
    split at hstep
    · cases hstep; simp
    · split at hstep
      · cases hstep; simp
      · split at hstep <;> cases hstep <;> simp
  case user sub => split at hstep <;> cases hstep <;> simp
  case joinUser u => cases hstep; simp
  case memberships u => split at hstep <;> cases hstep <;> simp
  case joinRooms u roomIds => cases hstep; simp
  case presence u pc =>
    obtain ⟨⟨world, pc₁⟩, hp, he⟩ := Option.map_eq_some_iff.1 hstep
    have hr := Presence.rank_addStep hp
    simp only at he
    split at he <;> cases he
    · split <;> simp only [ConnectPc.rank] <;> omega
    · simp
    · simp only [ConnectPc.rank]; omega
  case myRooms u => split at hstep <;> cases hstep <;> simp
  case coMembers u roomIds => cases hstep; simp
  all_goals cases hstep

@[simp] def ReadPc.rank : ReadPc → ℕ
  | .received => 3
  | .markRead _ _ _ pc => pc.rank
  | .done _ => 0

theorem rank_onReadStep {id : String} {body : Option ReadPayload} {h h' : Hub} {pc pc' : ReadPc}
    (hs : onReadStep id body h pc = some (h', pc')) : pc'.rank + 1 ≤ pc.rank := by
  cases pc <;> simp only [onReadStep] at hs
  case received => cases hs; split <;> simp
  case markRead r u n pc =>
    obtain ⟨⟨w, pc₁⟩, hread, he⟩ := Option.map_eq_some_iff.1 hs
    have hr := Messages.rank_readStep hread
    cases he
    split <;> simp only [ReadPc.rank] <;> omega
  case done ack => cases hs

@[simp] def SendPc.rank : SendPc → ℕ
  | .received => 51
  | .createMessage _ pc => pc.ahead
  | .done _ => 0

theorem rank_sendReturns (userId : Option String) (pc : Messages.CreatePc) :
    (sendReturns userId pc).rank ≤ pc.ahead := by
  unfold sendReturns
  split
  · exact Nat.zero_le _
  · exact Nat.zero_le _
  · exact le_rfl

/-- Where an action throws there was something left to do. -/
theorem rank_of_throws {b : SendPayload} {userId : Option String} {db : Db}
    {pc : Messages.CreatePc} {e : Failure} (h : b.throws userId db pc = some e) :
    1 ≤ pc.ahead := by
  cases pc <;> first | (simp only [SendPayload.throws] at h; cases h) |
    simp [Messages.CreatePc.ahead]

theorem rank_onSendStep {json : Messages.Json} {c : Choice} {id : String}
    {body : Option SendPayload} {h h' : Hub} {pc pc' : SendPc}
    (hs : onSendStep json c id body h pc = some (h', pc')) : pc'.rank + 1 ≤ pc.rank := by
  cases pc <;> simp only [onSendStep] at hs
  case received =>
    cases hs
    split
    · simp
    · exact Nat.succ_le_succ (Messages.ahead_createStart _)
  case createMessage userId pc =>
    split at hs
    · rename_i hthrows
      cases hs
      exact rank_of_throws hthrows
    · obtain ⟨⟨w, pc₁⟩, hcreate, he⟩ := Option.map_eq_some_iff.1 hs
      have hr := Messages.ahead_createStep hcreate
      cases he
      exact (Nat.succ_le_succ (rank_sendReturns userId pc₁)).trans hr
  case done ack => cases hs

@[simp] def DeletePc.rank : DeletePc → ℕ
  | .received => 5
  | .softDelete _ pc => pc.rank + 1
  | .done _ => 0

theorem rank_onDeleteStep {cfg : AppConfig} {id : String} {body : Option DeletePayload}
    {h h' : Hub} {pc pc' : DeletePc} (hs : onDeleteStep cfg id body h pc = some (h', pc')) :
    pc'.rank + 1 ≤ pc.rank := by
  cases pc <;> simp only [onDeleteStep] at hs
  case received => cases hs; split <;> simp
  case softDelete userId pc =>
    split at hs
    · obtain ⟨⟨w, pc₁⟩, hdelete, he⟩ := Option.map_eq_some_iff.1 hs
      have hr := Messages.rank_deleteStep hdelete
      cases he
      unfold deleteReturns
      split <;> simp only [DeletePc.rank] <;> omega
    · cases hs; simp
    · cases hs; simp
  case done ack => cases hs

@[simp] def JoinPc.rank : JoinPc → ℕ
  | .received => 3
  | .member _ => 2
  | .join _ => 1
  | .done _ => 0

theorem rank_onRoomJoinStep {id : String} {roomId : JsValue} {h h' : Hub} {pc pc' : JoinPc}
    (hs : onRoomJoinStep id roomId h pc = some (h', pc')) : pc'.rank + 1 ≤ pc.rank := by
  cases pc <;> simp only [onRoomJoinStep] at hs
  case received => cases hs; simp
  case member userId =>
    cases hs
    split
    · split <;> simp
    · simp
  case join r => cases hs; simp
  case done ack => cases hs

@[simp] def DisconnectPc.rank : DisconnectPc → ℕ
  | .left => 7
  | .presence _ pc => pc.rank + 2
  | .myRooms _ => 2
  | .coMembers _ _ => 1
  | .done => 0

theorem rank_disconnectStep {id : String} {h h' : Hub} {pc pc' : DisconnectPc}
    (hs : disconnectStep id h pc = some (h', pc')) : pc'.rank + 1 ≤ pc.rank := by
  cases pc <;> simp only [disconnectStep] at hs
  case left => cases hs; split <;> simp
  case presence userId pc =>
    obtain ⟨⟨w, pc₁⟩, hp, he⟩ := Option.map_eq_some_iff.1 hs
    have hr := Presence.rank_removeStep hp
    cases he
    split <;> simp only [DisconnectPc.rank] <;> omega
  case myRooms userId => split at hs <;> cases hs <;> simp
  case coMembers userId roomIds => cases hs; simp
  case done => cases hs

@[simp] def Pc.rank : Pc → ℕ
  | .connect pc => pc.rank
  | .read pc => pc.rank

@[simp] def EventPc.rank : EventPc → ℕ
  | .send pc => pc.rank
  | .delete pc => pc.rank
  | .join pc => pc.rank
  | .disconnect pc => pc.rank

/-! ## The server -/

/-- How many there are on the lists a call comes with. -/
def ServerCall.load : ServerCall → ℕ
  | .inr ⟨.rooms, call⟩ => Rooms.Call.load call
  | .inr ⟨.whitelist, call⟩ => Admin.EntryCall.load call
  | .inr ⟨.push, call⟩ => Push.Call.load call
  | _ => 0

def Service.rank (load : ℕ) : (s : Service) → s.Pc → ℕ
  | .auth, pc => Auth.Pc.rank pc
  | .admin, pc => Admin.Pc.rank pc
  | .whitelist, pc => Admin.EntryPc.rank pc
  | .messages, pc => Messages.Pc.rank pc
  | .rooms, pc => Rooms.Pc.rank load pc
  | .roomUpdates, pc => Rooms.UpdatePc.rank pc
  | .push, pc => Push.Pc.rank pc
  | .media, pc => MediaService.Pc.rank pc
  | .profile, pc => ProfileService.Pc.rank pc

def Service.cost : (s : Service) → s.Pc → ℕ
  | .auth, pc => Auth.Pc.cost pc
  | .admin, pc => Admin.Pc.cost pc
  | _, _ => 1

def ServerPc.rank (k : ServerCall) : ServerPc → ℕ
  | .inl (.inl pc) => pc.rank
  | .inl (.inr pc) => pc.rank
  | .inr ⟨s, pc⟩ => s.rank (ServerCall.load k) pc

def ServerPc.cost : ServerPc → ℕ
  | .inl _ => 1
  | .inr ⟨s, pc⟩ => s.cost pc

theorem rank_socket {cfg : AppConfig} {decode : String → Option Jwt} {call : Call} {h h' : Hub}
    {pc pc' : Pc} (hs : step cfg decode call h pc = some (h', pc')) : pc'.rank + 1 ≤ pc.rank := by
  cases acts_of_socket hs with
  | connect hconnect => exact rank_connectStep hconnect
  | read hread => exact rank_onReadStep hread

theorem rank_event {cfg : AppConfig} {json : Messages.Json} {c : Choice} {call : EventCall}
    {h h' : Hub} {pc pc' : EventPc} (hs : eventStep cfg json c call h pc = some (h', pc')) :
    pc'.rank + 1 ≤ pc.rank := by
  unfold eventStep at hs
  split at hs
  · obtain ⟨⟨h₁, pc₁⟩, hsend, he⟩ := Option.map_eq_some_iff.1 hs
    cases he
    exact rank_onSendStep hsend
  · obtain ⟨⟨h₁, pc₁⟩, hdelete, he⟩ := Option.map_eq_some_iff.1 hs
    cases he
    exact rank_onDeleteStep hdelete
  · obtain ⟨⟨h₁, pc₁⟩, hjoin, he⟩ := Option.map_eq_some_iff.1 hs
    cases he
    exact rank_onRoomJoinStep hjoin
  · obtain ⟨⟨h₁, pc₁⟩, hleave, he⟩ := Option.map_eq_some_iff.1 hs
    cases he
    exact rank_disconnectStep hleave
  · cases hs

theorem rank_service {cfg : AppConfig} {json : Messages.Json} {c : Choice} {s : Service}
    {call : s.Call} {w w' : World} {pc pc' : s.Pc}
    (h : (s.machine cfg json).step c call w pc = some (w', pc')) :
    s.rank (ServerCall.load (.inr ⟨s, call⟩)) pc' + s.cost pc ≤
      s.rank (ServerCall.load (.inr ⟨s, call⟩)) pc := by
  cases s with
  | auth => exact Auth.rank_acts (Auth.acts_of_step h)
  | admin =>
    obtain ⟨id, dto⟩ := call
    exact Admin.rank_acts (Admin.acts_of_step h)
  | whitelist => exact Admin.rank_entryStep h
  | messages => exact Messages.rank_step h
  | rooms => exact Rooms.rank_step h
  | roomUpdates =>
    obtain ⟨r, a, dto⟩ := call
    exact Rooms.rank_updateStep h
  | push => exact Push.rank_step h
  | media => exact MediaService.rank_step h
  | profile => exact ProfileService.rank_step h

theorem bounded_server (cfg : AppConfig) (decode : String → Option Jwt) (json : Messages.Json) :
    Bounded (server cfg decode json) ServerPc.cost ServerPc.rank := by
  intro c k h l h' l' hs
  obtain ⟨h₁, hacts, -⟩ := server_step hs
  cases hacts with
  | socket hsocket => exact rank_socket hsocket
  | event hevent => exact rank_event hevent
  | service hservice => exact rank_service hservice

theorem rank_start (cfg : AppConfig) (decode : String → Option Jwt) (json : Messages.Json)
    (k : ServerCall) :
    ServerPc.rank k ((server cfg decode json).start k) ≤ ServerCall.load k + 91 := by
  rcases k with (call | call) | ⟨s, call⟩
  · cases call <;> exact Nat.le_of_ble_eq_true rfl
  · cases call <;> exact Nat.le_of_ble_eq_true rfl
  · cases s with
    | auth => cases call <;> exact Nat.le_of_ble_eq_true rfl
    | admin | roomUpdates | profile => exact Nat.le_of_ble_eq_true rfl
    | whitelist => exact (Admin.rank_entryStart call).trans (Nat.add_le_add_left (by decide) _)
    | messages =>
      cases call with
      | createMessage p =>
        exact Nat.le_add_left_of_le ((Messages.ahead_createStart p).trans (by decide))
      | _ => exact Nat.le_of_ble_eq_true rfl
    | rooms =>
      cases call with
      | createRoom creatorId dto =>
        exact Nat.le_add_left_of_le ((Rooms.rank_createRoomStart creatorId dto).trans (by decide))
      | addMembers r a userIds => exact Nat.add_le_add_left (by decide : 52 ≤ 91) _
      | _ => exact Nat.le_of_ble_eq_true rfl
    | push => exact (Push.rank_start call).trans (Nat.add_le_add_left (by decide) _)
    | media => exact Nat.le_add_left_of_le ((MediaService.rank_start cfg call).trans (by decide))

end Realtime

end Intaktok
