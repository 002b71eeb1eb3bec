import Linger.FiniteMap

/-! What travels on the gateway, cut down to the fields its fan-out reads: a
message or a room is its ids, and a body, a name or a session description that
nothing here looks at is left out. -/
namespace Linger

abbrev UserId := ℕ
abbrev RoomId := ℕ
abbrev SessionId := ℕ
abbrev MessageId := ℕ

inductive PresenceState
  | inRoom | around | idle | away | offline
  deriving DecidableEq, Repr

structure PresenceEntry where
  userId : UserId
  state : PresenceState
  roomId : Option RoomId
  awayMessage : Option String
  deriving DecidableEq, Repr

structure Message where
  id : MessageId
  roomId : RoomId
  deriving DecidableEq, Repr

structure Room where
  id : RoomId
  deriving DecidableEq, Repr

inductive ServerEvent
  | hello
  | ready
  | resumed (replayed : ℕ)
  | invalidSession (reason : String)
  | heartbeatAck
  | messageCreate (m : Message)
  | messageUpdate (m : Message)
  | messageDelete (id : MessageId) (roomId : RoomId)
  | reactionUpdate (messageId : MessageId) (userIds : List UserId)
  | presenceUpdate (entry : PresenceEntry)
  | roomOccupancy (roomId : RoomId) (userIds : List UserId)
  | roomEnter (roomId : RoomId) (userId : UserId) (entranceSound : Option String)
  | roomLeave (roomId : RoomId) (userId : UserId)
  | userUpdate (userId : UserId)
  | userRemove (userId : UserId) (deleted : Option Bool)
  | roomCreate (r : Room)
  | roomUpdate (r : Room)
  | dmRemove (roomId : RoomId)
  | typing (roomId : RoomId) (userId : UserId)
  | voiceState (roomId : RoomId)
  | voiceOffer (sdp : String)
  | voiceRemoved (roomId : RoomId)
  | knock (fromUserId : UserId)
  | blockUpdate (userId : UserId) (blocked : Bool)
  | readUpdate (roomId : RoomId) (lastReadId : MessageId)
  | reportsChanged
  | emojiUpdate
  deriving DecidableEq, Repr

/-- Which room a frame is about, if any, with no wildcard: a reaction is
published with its room beside it, and an addressed frame has none. -/
def roomOf : ServerEvent → Option RoomId
  | .messageCreate m | .messageUpdate m => some m.roomId
  | .messageDelete _ roomId | .roomOccupancy roomId _ | .roomEnter roomId _ _
  | .roomLeave roomId _ | .typing roomId _ => some roomId
  | .roomCreate r | .roomUpdate r => some r.id
  | .voiceState roomId => some roomId
  | .reactionUpdate _ _ => none
  | .voiceOffer _ | .voiceRemoved _ => none
  | .emojiUpdate => none
  | .presenceUpdate _ | .userUpdate _ | .userRemove _ _ | .knock _ => none
  | .blockUpdate _ _ | .reportsChanged => none
  | .dmRemove _ => none
  | .readUpdate _ _ => none
  | .hello | .ready | .resumed _ | .invalidSession _ | .heartbeatAck => none

/-- The embeddings and overrides U+202A to U+202E and the isolates U+2066 to U+2069. -/
def turnsTextAround (c : Char) : Bool :=
  (0x202A ≤ c.toNat && c.toNat ≤ 0x202E) || (0x2066 ≤ c.toNat && c.toNat ≤ 0x2069)

def withoutDirectionOverrides (s : String) : String :=
  String.ofList (s.toList.filter fun c => !turnsTextAround c)

def maxStatusLineChars : ℕ := 240

/-- The rule an away message is held to, whichever way it arrives. -/
def awayMessageOk (message : String) : Bool := message.toList.length ≤ maxStatusLineChars

end Linger
