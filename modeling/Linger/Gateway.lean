import Linger.Wire

/-! The gateway's maps, its bus and who a frame on it reaches. -/
namespace Linger
open FiniteMap

/-- One session's own say in where its person is. -/
structure SessionPresence where
  roomId : Option RoomId
  state : PresenceState
  awayMessage : Option String
  movedAt : ℕ
  awayAt : ℕ
  sockets : ℕ
  dropped : Option ℕ
  heldOver : Bool
  deriving DecidableEq, Repr

/-- A published frame as everybody it reaches is told it. -/
structure Told where
  json : ServerEvent
  room : Option RoomId
  deriving DecidableEq, Repr

/-- One event on the bus, who it is for, and what the first session to need it
made of it. -/
structure Fanout where
  event : ServerEvent
  toUser : Option UserId
  toSession : Option SessionId
  room : Option RoomId
  told : Option Told
  deriving DecidableEq, Repr

def Fanout.new (event : ServerEvent) (toUser : Option UserId) (toSession : Option SessionId)
    (room : Option RoomId) : Fanout :=
  ⟨event, toUser, toSession, room, none⟩

/-- `bus` is everything published, oldest first; each map is the source's
concurrent map of that name. -/
structure Gateway where
  bus : List Fanout
  presence : FMap UserId PresenceEntry
  sessionPresence : FMap UserId (FMap SessionId SessionPresence)
  presenceOrder : ℕ
  drops : ℕ
  presenceHeld : Finset UserId
  focusTold : FMap UserId (Option RoomId)
  focusHeld : Finset UserId
  dmMembers : FMap RoomId (List UserId)

namespace Gateway

def new : Gateway := ⟨[], ∅, ∅, 0, 0, ∅, ∅, ∅, ∅⟩

/-- Fan an event out to whoever the event says it is for. -/
def publish (g : Gateway) (event : ServerEvent) : Gateway :=
  { g with bus := g.bus ++ [Fanout.new event none none (roomOf event)] }

/-- Fan out a frame that belongs to a room without naming it. -/
def publishIn (g : Gateway) (roomId : RoomId) (event : ServerEvent) : Gateway :=
  { g with bus := g.bus ++ [Fanout.new event none none (some roomId)] }

def publishTo (g : Gateway) (userId : UserId) (event : ServerEvent) : Gateway :=
  { g with bus := g.bus ++ [Fanout.new event (some userId) none none] }

/-- A DM is written here the moment it is made, before its `room.create`. -/
def noteDm (g : Gateway) (roomId : RoomId) (members : List UserId) : Gateway :=
  { g with dmMembers := g.dmMembers.insert roomId members }

/-- Somebody left a group DM. The entry stays when the last person leaves. -/
def leftDm (g : Gateway) (roomId : RoomId) (userId : UserId) : Gateway :=
  { g with dmMembers := g.dmMembers.modify roomId fun members => members.filter (· ≠ userId) }

/-- A room the map has never heard of is public. -/
def canSeeRoom (g : Gateway) (receiver : UserId) (roomId : RoomId) : Bool :=
  match g.dmMembers[roomId]? with
  | some members => members.contains receiver
  | none => true

def isDm (g : Gateway) (roomId : RoomId) : Bool := (g.dmMembers[roomId]?).isSome

/-- What anybody is told about where a person is: in a DM is around, to all. -/
def outward (g : Gateway) (entry : PresenceEntry) : PresenceEntry :=
  if entry.roomId.any g.isDm then
    { entry with
      roomId := none
      state := if entry.state = .inRoom then .around else entry.state }
  else entry

def occupancy (g : Gateway) (roomId : RoomId) : List UserId :=
  (g.presence.toList.filter fun e => e.2.roomId = some roomId).map Prod.fst

/-- What everybody a frame reaches is told, made once and kept on the frame. -/
def told (g : Gateway) (f : Fanout) : Told :=
  match f.told with
  | some told => told
  | none =>
    match f.event with
    | .presenceUpdate entry => ⟨.presenceUpdate (g.outward entry), (g.outward entry).roomId⟩
    | event => ⟨event, none⟩

/-- A `room.enter` reaches only clients standing in that room. -/
def entersElsewhere (g : Gateway) (receiver : UserId) (event : ServerEvent) : Bool :=
  match event with
  | .roomEnter roomId _ _ => !(g.presence[receiver]?).any fun e => e.roomId = some roomId
  | _ => false

/-- What this person gets of a frame, if anything, and the frame as it is left. -/
def visibleTo (g : Gateway) (receiver : UserId) (sessionId : SessionId) (f : Fanout) :
    Option ServerEvent × Fanout :=
  let made : Fanout := { f with told := some (g.told f) }
  match f.toSession with
  | some target => if target = sessionId then (some (g.told f).json, made) else (none, f)
  | none =>
    match f.toUser with
    | some target => if target = receiver then (some (g.told f).json, made) else (none, f)
    | none =>
      if f.room.any fun roomId => !g.canSeeRoom receiver roomId then (none, f)
      else
        if g.entersElsewhere receiver f.event then (none, f)
        else
          match (g.told f).room, f.event with
          | some roomId, .presenceUpdate entry =>
            if g.canSeeRoom receiver roomId then (some (g.told f).json, made)
            else (some (.presenceUpdate { g.outward entry with roomId := none }), made)
          | _, _ => (some (g.told f).json, made)

end Gateway
end Linger
