import Intaktok.World
/-
# `PresenceService`: the live sockets of a user

| here | there |
| --- | --- |
| `key` | `key` (`presence.service.ts:23`) |
| `refresh` | `refresh` (`:53`) |
| `AddPc`, `addStep` | `addConnection` (`:32`) |
| `RemovePc`, `removeStep` | `removeConnection` (`:40`) |
| `isOnline` | `isOnline` (`:57`) |
-/

namespace Intaktok.Presence

def key (userId : String) : String := "presence:online:" ++ userId

def refresh (cfg : AppConfig) (userId : String) (w : World) : World :=
  w.expire (key userId) cfg.presenceTtlSec

inductive AddPc where
  | sadd
  | expire
  | scard
  | done (r : Except Failure Bool)

def addStep (cfg : AppConfig) (userId socketId : String) (w : World) :
    AddPc → Option (World × AddPc)
  | .sadd => match w.sadd (key userId) socketId with
    | some w' => some (w', .expire)
    | none => some (w, .done (.error .redis))
  | .expire => some (w.expire (key userId) cfg.presenceTtlSec, .scard)
  | .scard => match w.scard (key userId) with
    | some count => some (w, .done (.ok (count == 1)))
    | none => some (w, .done (.error .redis))
  | .done _ => none

inductive RemovePc where
  | srem
  | scard
  | del
  | lastSeenAt
  | done (r : Except Failure Bool)

/-- `user.update` of the time the user was last seen (`:45`), whose error is caught. -/
def updateLastSeenAt (userId : String) (w : World) : World :=
  if w.db.users.rows.any (·.id == userId) then
    { w with db := w.db.updateLastSeenAt userId w.now }
  else w

@[simp] theorem lookup_updateLastSeenAt (userId : String) (w : World) (k : String) :
    (updateLastSeenAt userId w).lookup k = w.lookup k := by
  unfold updateLastSeenAt
  split <;> rfl

theorem updateLastSeenAt_world (userId : String) (w : World) :
    ∃ lastSeenAt, updateLastSeenAt userId w = { w with db.lastSeenAt := lastSeenAt } := by
  unfold updateLastSeenAt
  split
  · exact ⟨_, rfl⟩
  · exact ⟨w.db.lastSeenAt, rfl⟩

def removeStep (userId socketId : String) (w : World) : RemovePc → Option (World × RemovePc)
  | .srem => match w.srem (key userId) socketId with
    | some w' => some (w', .scard)
    | none => some (w, .done (.error .redis))
  | .scard => match w.scard (key userId) with
    | some count => some (w, if count = 0 then .del else .done (.ok false))
    | none => some (w, .done (.error .redis))
  | .del => some (w.del (key userId), .lastSeenAt)
  | .lastSeenAt => some (updateLastSeenAt userId w, .done (.ok true))
  | .done _ => none

/-- `none` when the key holds no set. -/
def isOnline (w : World) (userId : String) : Option Bool :=
  (w.scard (key userId)).map (0 < ·)

section Redis
variable {cfg : AppConfig} {userId socketId : String} {w w' : World}

theorem addStep_world {pc pc' : AddPc} (h : addStep cfg userId socketId w pc = some (w', pc')) :
    ∃ redis, w' = { w with redis } := by
  cases pc <;> simp only [addStep] at h
  case sadd =>
    split at h <;> cases h
    · rename_i hs; exact World.sadd_world hs
    · exact ⟨w.redis, rfl⟩
  case expire => cases h; exact World.expire_world ..
  case scard => split at h <;> cases h <;> exact ⟨w.redis, rfl⟩
  case done r => cases h

/-- Redis and the column of the user are all that a removal writes. -/
theorem removeStep_world {pc pc' : RemovePc} (h : removeStep userId socketId w pc = some (w', pc')) :
    ∃ redis lastSeenAt, w' = { w with redis, db.lastSeenAt := lastSeenAt } := by
  cases pc <;> simp only [removeStep] at h
  case srem =>
    split at h <;> cases h
    · rename_i hs
      obtain ⟨redis, rfl⟩ := World.srem_world hs
      exact ⟨redis, w.db.lastSeenAt, rfl⟩
    · exact ⟨w.redis, w.db.lastSeenAt, rfl⟩
  case scard => split at h <;> cases h <;> exact ⟨w.redis, w.db.lastSeenAt, rfl⟩
  case del => cases h; exact ⟨_, w.db.lastSeenAt, rfl⟩
  case lastSeenAt =>
    cases h
    exact ⟨w.redis, updateLastSeenAt_world userId w⟩
  case done r => cases h

end Redis

end Intaktok.Presence
