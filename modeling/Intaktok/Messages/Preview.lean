import Intaktok.World
/-
# Previews of messages

| here | there |
| --- | --- |
| `SystemMessagePayload`, `systemPreview` | `messages/system-message.ts` |
| `messagePreview` | `messages/preview.ts` |
| `Json` | `JSON.stringify` and `JSON.parse` on the payloads; `parse` fails where the source throws |
| `slice16` | `String.prototype.slice(0, n)`, which counts UTF-16 units; half a surrogate pair is sent as U+FFFD |
-/

namespace Intaktok.Messages

inductive SystemMessagePayload where
  | roomCreated (actorId : String)
  | memberJoined (actorId : String) (targetIds : List String)
  | memberLeft (actorId : String)
  | memberKicked (actorId targetId : String)
  /-- A name can be set to null, whatever the type says. -/
  | roomRenamed (actorId : String) (name : Option String)
  | roomAvatarChanged (actorId : String)
  | roleChanged (actorId targetId : String) (role : MemberRole)
deriving DecidableEq, Repr

def systemPreview : SystemMessagePayload → String
  | .roomCreated _ => "채팅방이 생성되었습니다."
  | .memberJoined _ _ => "새로운 멤버가 입장했습니다."
  | .memberLeft _ => "멤버가 퇴장했습니다."
  | .memberKicked _ _ => "멤버가 내보내졌습니다."
  | .roomRenamed _ name => "방 이름이 '" ++ name.getD "null" ++ "'(으)로 변경되었습니다."
  | .roomAvatarChanged _ => "방 사진이 변경되었습니다."
  | .roleChanged _ _ _ => "멤버 권한이 변경되었습니다."

/-- Postgres has no U+0000 in a `text`. -/
def storable (s : String) : Bool := !s.toList.contains '\u0000'

structure Json where
  stringify : SystemMessagePayload → String
  parse : String → Option SystemMessagePayload
  /-- Control characters are escaped. -/
  stringify_storable : ∀ payload, storable (stringify payload) = true

def slice16 : Nat → List Char → List Char
  | 0, _ | _, [] => []
  | 1, c :: _ => if c.toNat < 0x10000 then [c] else ['\uFFFD']
  | n + 2, c :: cs => c :: slice16 (if c.toNat < 0x10000 then n + 1 else n) cs

/-- `none` when `JSON.parse` throws. -/
def messagePreview (json : Json) (type : MessageType) (content : Option String) : Option String :=
  match type with
  | .TEXT => some (String.ofList (slice16 80 (content.getD "").toList))
  | .IMAGE => some "사진"
  | .GIF => some "움짤"
  | .VIDEO => some "동영상"
  | .FILE => some "파일"
  | .SYSTEM => match truthy content with
    | some s => (json.parse s).map systemPreview
    | none => some "시스템 메시지"

end Intaktok.Messages
