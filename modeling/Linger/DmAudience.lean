import Linger.DmStore
import Linger.Gateway
import Linger.StepMachine

/-! Who a DM's frames reach while DMs are made, found, left and reloaded, each
of these cut where it waits for the database. -/
namespace Linger
open FiniteMap StepMachine

/-- Where a request stands. `line` is the message saying somebody left, when
there is anybody to tell. -/
inductive DmTask
  | done
  | insert (members : List UserId)
  | note (roomId : RoomId) (members : List UserId)
  | announce (roomId : RoomId)
  | posting (roomId : RoomId) (event : ServerEvent)
  | leftDm (roomId : RoomId) (userId : UserId) (line : Option MessageId)
  | voiceOut (roomId : RoomId) (userId : UserId) (line : Option MessageId)
  | removeTold (roomId : RoomId) (userId : UserId) (line : Option MessageId)
  | tellRoom (lines : List (RoomId × MessageId))
  | tellLine (lines : List (RoomId × MessageId))
  | reload (lines : List (RoomId × MessageId))
  | reloadMembers (ids : List RoomId) (loaded : List (RoomId × List UserId))
      (lines : List (RoomId × MessageId))
  | reloadInsert (loaded : List (RoomId × List UserId)) (fresh : List RoomId)
      (lines : List (RoomId × MessageId))
  | reloadRetain (fresh : List RoomId) (lines : List (RoomId × MessageId))

/-- What a session was handed of a DM, and what its person was to the DM then. -/
structure Handed where
  userId : UserId
  roomId : RoomId
  wasMember : Bool
  hadLeft : Bool
  deriving DecidableEq, Repr

/-- `left` is who has left which DM, once `left_dm` has finished for them. -/
structure Audience where
  db : DmStore
  gateway : Gateway
  tasks : ℕ → DmTask
  sessions : FMap SessionId (UserId × ℕ)
  left : Finset (RoomId × UserId)
  handed : List Handed

namespace Gateway

/-- One DM of `reload_dms`, as it was read. -/
def reloadInsert (g : Gateway) (roomId : RoomId) (members : List UserId) : Gateway :=
  { g with dmMembers := g.dmMembers.insert roomId members }

/-- A DM that is gone from the database must not linger. -/
def reloadRetain (g : Gateway) (fresh : List RoomId) : Gateway :=
  { g with dmMembers := g.dmMembers.filter fun roomId _ => fresh.contains roomId }

end Gateway

namespace Audience

/-- What a request sees from outside as it goes on: a new room's id, and
whether somebody leaving had a seat in the DM's voice. -/
structure Seen where
  roomId : RoomId
  seated : Bool

inductive Act
  | create (i : ℕ) (members : List UserId)
  | post (i : ℕ) (roomId : RoomId) (userId : UserId) (event : ServerEvent)
  | leave (i : ℕ) (roomId : RoomId) (userId : UserId) (line : MessageId)
  | remove (i : ℕ) (userId : UserId)
  | restore (i : ℕ) (userId : UserId)
  | delete (i : ℕ) (userId : UserId) (lines : RoomId → MessageId)
  | step (i : ℕ) (seen : Seen)
  | fail (i : ℕ)
  | connect (sessionId : SessionId) (userId : UserId)
  | take (sessionId : SessionId)
  | gone (sessionId : SessionId)

def goOn (t : Audience) (i : ℕ) (task : DmTask) : Audience :=
  { t with tasks := Function.update t.tasks i task }

/-- Whether a request is waiting for the database, which can fail it. -/
def waits : DmTask → Bool
  | .insert _ | .note _ _ | .tellRoom _ | .reload _ | .reloadMembers _ _ _ => true
  | _ => false

/-- The next step of a request. -/
def advance (t : Audience) (i : ℕ) (seen : Seen) : DmTask → Option Audience
  | .done => none
  | .insert members =>
    if (t.db.dms[seen.roomId]?).isSome then none
    else
      match t.db.insertDm seen.roomId members with
      -- somebody else's insert won: theirs is found, and nothing is told
      | none => some (t.goOn i .done)
      | some db => some ({ t with db := db }.goOn i (.note seen.roomId members))
  | .note roomId members =>
    some ({ t with gateway := t.gateway.noteDm roomId members }.goOn i (.announce roomId))
  | .announce roomId =>
    some ({ t with gateway := t.gateway.publish (.roomCreate ⟨roomId⟩) }.goOn i .done)
  | .posting roomId event =>
    let g := if roomOf event = some roomId then t.gateway.publish event
      else t.gateway.publishIn roomId event
    some ({ t with gateway := g }.goOn i .done)
  | .leftDm roomId userId line =>
    some ({ t with
        gateway := t.gateway.leftDm roomId userId
        left := Insert.insert (roomId, userId) t.left }.goOn i (.voiceOut roomId userId line))
  | .voiceOut roomId userId line =>
    let g := if seen.seated then t.gateway.publish (.voiceState roomId) else t.gateway
    some ({ t with gateway := g }.goOn i (.removeTold roomId userId line))
  | .removeTold roomId userId line =>
    some ({ t with gateway := t.gateway.publishTo userId (.dmRemove roomId) }.goOn i
      (.tellRoom ((line.map fun l => (roomId, l)).toList)))
  | .tellRoom [] => some (t.goOn i .done)
  | .tellRoom (l :: lines) =>
    some ({ t with
      gateway := t.gateway.publish (.roomUpdate ⟨l.1⟩) }.goOn i (.tellLine (l :: lines)))
  | .tellLine [] => some (t.goOn i .done)
  | .tellLine (l :: lines) =>
    some ({ t with gateway := t.gateway.publish (.messageCreate ⟨l.2, l.1⟩) }.goOn i
      (.tellRoom lines))
  | .reload lines => some (t.goOn i (.reloadMembers (t.db.dms.toList.map Prod.fst) [] lines))
  | .reloadMembers [] loaded lines =>
    some (t.goOn i (.reloadInsert loaded (loaded.map Prod.fst) lines))
  | .reloadMembers (d :: ids) loaded lines =>
    some (t.goOn i (.reloadMembers ids (loaded ++ [(d, t.db.members d)]) lines))
  | .reloadInsert [] fresh lines => some (t.goOn i (.reloadRetain fresh lines))
  | .reloadInsert (e :: loaded) fresh lines =>
    some ({ t with gateway := t.gateway.reloadInsert e.1 e.2 }.goOn i
      (.reloadInsert loaded fresh lines))
  | .reloadRetain fresh lines =>
    some ({ t with gateway := t.gateway.reloadRetain fresh }.goOn i (.tellRoom lines))

/-- The frame a session takes next. -/
def nextFrame (t : Audience) (sessionId : SessionId) : Option Fanout :=
  (t.sessions[sessionId]?).bind fun e => t.gateway.bus[e.2]?

/-- What handing `f` to this person is, when it is about a DM. -/
def handing (t : Audience) (userId : UserId) (f : Fanout) : Option Handed :=
  f.room.bind fun d => (t.db.dms[d]?).map fun row =>
    ⟨userId, d, row.made.contains userId, (d, userId) ∈ t.left⟩

/-- A request comes in as a task of its own. -/
def starts (t : Audience) (i : ℕ) (next : Option Audience) : Option Audience :=
  match t.tasks i with
  | .done => next
  | _ => none

def step (t : Audience) : Act → Option Audience
  | .create i members =>
    -- the DM of these people is found at once, and nothing is told
    t.starts i (if (t.db.byKey (DmStore.memberKey members)).isSome then some t
      else some (t.goOn i (.insert members)))
  | .post i roomId userId event =>
    -- an event that names no room is published with the room beside it
    t.starts i (if t.db.visibleTo roomId userId ∧ (roomOf event).all (· = roomId) then
        some (t.goOn i (.posting roomId event))
      else none)
  | .leave i roomId userId line =>
    t.starts i ((t.db.leave roomId userId).map fun r =>
      { t with db := r.1 }.goOn i (.leftDm roomId userId (if r.2 then some line else none)))
  | .remove i userId =>
    t.starts i (some ({ t with db := t.db.remove userId }.goOn i (.reload [])))
  | .restore i userId =>
    t.starts i (some ({ t with db := t.db.restore userId }.goOn i (.reload [])))
  | .delete i userId lines =>
    t.starts i (some ({ t with db := t.db.delete userId }.goOn i
      (.reload ((t.db.deletionTells userId).map fun d => (d, lines d)))))
  | .step i seen => t.advance i seen (t.tasks i)
  | .fail i => if waits (t.tasks i) then some (t.goOn i .done) else none
  | .connect sessionId userId =>
    match t.sessions[sessionId]? with
    | some _ => none
    | none => some { t with
        sessions := t.sessions.insert sessionId (userId, t.gateway.bus.length) }
  | .take sessionId =>
    match t.sessions[sessionId]?, t.nextFrame sessionId with
    | some (userId, n), some f =>
      let (json, f') := t.gateway.visibleTo userId sessionId f
      some { t with
        gateway := { t.gateway with bus := t.gateway.bus.set n f' }
        sessions := t.sessions.insert sessionId (userId, n + 1)
        handed := t.handed ++ (json.bind fun _ => t.handing userId f).toList }
    | _, _ => none
  | .gone sessionId => some { t with sessions := t.sessions.erase sessionId }

def machine : Machine Audience Act :=
  ⟨⟨DmStore.empty, Gateway.new, fun _ => .done, ∅, ∅, []⟩, step⟩

/-- What keeps a DM's frames in it: nobody takes one while the list of DMs
doesn't have the DM, and no list of members is written that has somebody in it
who has left. -/
def Safe (t : Audience) : Act → Prop
  | .take sessionId =>
    match (t.nextFrame sessionId).bind Fanout.room with
    | some d => (t.db.dms[d]?).isSome → t.gateway.isDm d
    | none => True
  | .step i _ =>
    match t.tasks i with
    | .note d members => ∀ u ∈ members, (d, u) ∉ t.left
    | .reloadInsert (e :: _) _ _ => ∀ u ∈ e.2, (e.1, u) ∉ t.left
    | _ => True
  | _ => True

end Audience
end Linger
