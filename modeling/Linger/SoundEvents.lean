import Linger.FiniteMap
import Linger.StepMachine

/-! The chime for somebody starting to watch your share, and the voice joins held back beside it:
one server's state, the frames that change it and what you change between them, and what `WatchCues`
plays. Times are in milliseconds. -/
namespace Linger.SoundEvents
open FiniteMap StepMachine

abbrev UserId := ℕ
abbrev SessionId := ℕ
abbrev RoomId := ℕ

structure VoicePeer where
  sessionId : SessionId
  userId : UserId
  screen : Bool
  watching : Option SessionId
deriving DecidableEq

/-- What the cues read of a server's state: this connection's session, the room it is in voice in,
and who is in voice where. -/
structure GatewayState where
  sessionId : Option SessionId
  myVoice : Option RoomId
  voice : FMap RoomId (List VoicePeer)

def GatewayState.unknown : GatewayState := ⟨none, none, ∅⟩

inductive ServerFrame where
  | ready (session : SessionId) (voice : List (RoomId × List VoicePeer))
  | voiceState (room : RoomId) (peers : List VoicePeer)
  | voiceRemoved (room : RoomId)
  | other
deriving DecidableEq

/-- Apply one server frame. -/
def apply (current : GatewayState) : ServerFrame → GatewayState
  | .ready session voice =>
    { sessionId := some session
      voice := voice.foldl (fun rooms room => rooms.insert room.1 room.2) ∅
      myVoice := none }
  | .voiceState room peers =>
    let voice := if peers.isEmpty then current.voice.erase room else current.voice.insert room peers
    let seated :=
      current.myVoice ≠ some room ∨ peers.any fun peer => current.sessionId = some peer.sessionId
    { current with voice := voice, myVoice := if seated then current.myVoice else none }
  | .voiceRemoved room =>
    { current with myVoice := if current.myVoice = some room then none else current.myVoice }
  | .other => current

def GatewayState.peersIn (state : GatewayState) (room : RoomId) : List VoicePeer :=
  (state.voice[room]?).getD []

/-- This connection's seat in the voice it's in, as the server has it. -/
def mySeat (state : GatewayState) : Option VoicePeer :=
  state.myVoice.bind fun room => state.sessionId.bind fun me =>
    (state.peersIn room).find? fun peer => peer.sessionId == me

/-- Who is watching the screen this connection shares, if it shares one. -/
def watchersOfMine (state : GatewayState) : Option (List UserId) :=
  (mySeat state).bind fun mine =>
    if mine.screen then
      some ((((state.myVoice.map state.peersIn).getD []).filter fun peer =>
        peer.watching == some mine.sessionId &&
          peer.userId != mine.userId).map VoicePeer.userId).dedup
    else none

/-- Who started watching your share in this frame, and who stopped. -/
def watchChange (frame : ServerFrame) (before after : GatewayState) : List UserId × List UserId :=
  let was := watchersOfMine before
  let now := if before.sessionId = after.sessionId then watchersOfMine after else none
  let stopped := (was.getD []).filter fun person => !(now.getD []).contains person
  let started := match was, now, frame with
    | some was, some now, .voiceState .. => now.filter fun person => !was.contains person
    | _, _, _ => []
  (started, stopped)

/-- The people whose sessions arrived in the frame's room, each once. -/
def peopleWhoJoined (frame : ServerFrame) (before after : GatewayState) : List UserId :=
  match frame with
  | .voiceState room _ =>
    let there := (before.peersIn room).map VoicePeer.sessionId
    (((after.peersIn room).filter fun peer =>
      !there.contains peer.sessionId).map VoicePeer.userId).dedup
  | _ => []

/-- `PEER_CUE_EVERY_MS`. -/
def peerCueEveryMs : ℕ := 60000

/-- `WATCH_JOIN_WAIT_MS`. -/
def watchJoinWaitMs : ℕ := 2000

inductive VoiceCue where
  | voiceJoin
  | voiceMove
  | peerJoin
  | peerLeave
deriving DecidableEq

inductive SoundCue where
  | watcher
  | voice (cue : VoiceCue)
deriving DecidableEq

/-- A voice join held back while you share, whose it is, and when it plays. -/
structure Held where
  people : List UserId
  due : ℕ
deriving DecidableEq

structure WatchCues where
  stopped : FMap UserId ℕ
  rang : FMap UserId ℕ
  held : Option Held

def WatchCues.new : WatchCues := ⟨∅, ∅, none⟩

/-- What is done with one frame, in order. -/
inductive Done where
  /-- The chime rings, for these people. -/
  | rings (people : List UserId)
  /-- The join held back ends: it plays, or a ring for these people says it, or you are not in
  voice. -/
  | letsGo (played : Bool) (people : List UserId)
  /-- The frame's own cue plays; a join is about these people. -/
  | plays (cue : VoiceCue) (people : List UserId)
  /-- A join is not played, since this rang for everybody in it a moment ago. -/
  | quiets (people : List UserId)
  /-- A join is held back. -/
  | holds (people : List UserId)
deriving DecidableEq

/-- What of it is heard. -/
def Done.sound : Done → Option SoundCue
  | .rings _ => some .watcher
  | .letsGo played _ => if played then some (.voice .peerJoin) else none
  | .plays cue _ => some (.voice cue)
  | .quiets _ => none
  | .holds _ => none

namespace WatchCues

/-- It rings for whoever has not stopped watching within the minute. -/
def due (cues : WatchCues) (now : ℕ) (person : UserId) : Bool :=
  (cues.stopped[person]?).all fun stopped => stopped + peerCueEveryMs ≤ now

/-- It rang for them less than the wait ago. -/
def justRang (cues : WatchCues) (now : ℕ) (person : UserId) : Bool :=
  (cues.rang[person]?).any fun rang => now < rang + watchJoinWaitMs

/-- `#letGo`: `play` is false when a ring for these people says it. -/
def letGo (cues : WatchCues) (play stillThere : Bool) (people : List UserId) :
    WatchCues × List Done :=
  match cues.held with
  | none => (cues, [])
  | some _ =>
    ({ cues with held := none }, [.letsGo (play && stillThere) (if play then [] else people)])

/-- What a frame changed is noted: first who stopped, then who started. -/
def noteStopped (cues : WatchCues) (stopped : List UserId) (now : ℕ) : WatchCues :=
  { cues with stopped := stopped.foldl (fun marks person => marks.insert person now) cues.stopped }

def noteStarted (cues : WatchCues) (started : List UserId) : WatchCues :=
  { cues with stopped := started.foldl (fun marks person => marks.erase person) cues.stopped }

def ring (cues : WatchCues) (due : List UserId) (now : ℕ) : WatchCues × List Done :=
  if due = [] then (cues, [])
  else ({ cues with rang := due.foldl (fun marks person => marks.insert person now) cues.rang },
    [.rings due])

/-- The Watch a held join was waiting for. -/
def settleHeld (cues : WatchCues) (started due : List UserId) (stillThere : Bool) :
    WatchCues × List Done :=
  match cues.held with
  | none => (cues, [])
  | some held =>
    if started.any held.people.contains then
      cues.letGo (!due.any held.people.contains) stillThere due
    else (cues, [])

/-- The frame's own cue. -/
def voiceCue (cues : WatchCues) (frame : ServerFrame) (before after : GatewayState)
    (voice : Option VoiceCue)
    (now : ℕ) : WatchCues × List Done :=
  match voice with
  | none => (cues, [])
  | some .peerJoin =>
    let joined := peopleWhoJoined frame before after
    if joined ≠ [] ∧ joined.all (cues.justRang now) then (cues, [.quiets joined])
    else
      match watchersOfMine after with
      | none => (cues, [.plays .peerJoin joined])
      | some watching =>
        if joined.all fun person => watching.contains person ||
            (mySeat after).map VoicePeer.userId == some person then
          (cues, [.plays .peerJoin joined])
        else
          match cues.held with
          | some held => ({ cues with held := some { held with people := held.people ++ joined } },
              [.holds joined])
          | none => ({ cues with held := some ⟨joined, now + watchJoinWaitMs⟩ }, [.holds joined])
  | some cue => (cues, [.plays cue []])

/-- Play what one frame calls for. -/
def hear (cues : WatchCues) (frame : ServerFrame) (before after : GatewayState)
    (voice : Option VoiceCue)
    (live : Bool) (now : ℕ) : WatchCues × List Done :=
  let (started, stopped) := watchChange frame before after
  let noted := cues.noteStopped stopped now
  let due := started.filter (noted.due now)
  let noted := noted.noteStarted started
  if live then
    let (rung, first) := noted.ring due now
    let (settled, second) := rung.settleHeld started due after.myVoice.isSome
    let (voiced, third) := settled.voiceCue frame before after voice now
    (voiced, first ++ second ++ third)
  else (noted, [])

/-- The timer of a join held back. -/
def timer (cues : WatchCues) (stillThere : Bool) : WatchCues × List Done :=
  cues.letGo true stillThere []

end WatchCues

/-- A voice join that was handed over, who joined, and where you were in voice then. -/
structure Handed where
  people : List UserId
  moment : ℕ
  room : Option RoomId
deriving DecidableEq

/-- What came of it. -/
inductive Fate where
  | played (moment : ℕ)
  | rang (people : List UserId)
  | left (room : Option RoomId)
deriving DecidableEq

/-- What became of somebody's watching: this rang for them, or they stopped, in a frame or between
two. -/
inductive What where
  | rang
  | stopped
  | unseen
deriving DecidableEq

structure Mark where
  what : What
  person : UserId
  moment : ℕ
deriving DecidableEq

/-- The window that holds the connection, what has become of everybody's watching, the latest first,
and the joins that wait or are settled. -/
structure Window where
  state : GatewayState
  cues : WatchCues
  clock : ℕ
  history : List Mark
  waiting : List Handed
  settled : List (Handed × Fate)

inductive Event where
  | frame (frame : ServerFrame) (voice : Option VoiceCue) (replayed : Bool) (now : ℕ)
  /-- You join a room's voice, move to another's, or leave. -/
  | seat (room : Option RoomId) (now : ℕ)
  /-- The connection is closed, and what the server said is forgotten. -/
  | closes (now : ℕ)
  | timer (now : ℕ)
deriving DecidableEq

def Event.now : Event → ℕ
  | .frame _ _ _ now | .seat _ now | .closes now | .timer now => now

/-- Who watched your share before and does not after. -/
def stops (before after : GatewayState) : List UserId :=
  ((watchersOfMine before).getD []).filter fun person =>
    !((watchersOfMine after).getD []).contains person

def marks (what : What) (now : ℕ) (people : List UserId) : List Mark :=
  people.map fun person => ⟨what, person, now⟩

namespace Window

/-- What is done comes to this of who was rung for and of the joins. -/
def tells (window : Window) (now : ℕ) : Done → Window
  | .rings people => { window with history := marks .rang now people ++ window.history }
  | .letsGo played people =>
    let fate := if played then .played now else if people = [] then .left window.state.myVoice
      else .rang people
    { window with settled := window.waiting.map (fun handed => (handed, fate)) ++
      window.settled, waiting := [] }
  | .plays .peerJoin people =>
    { window with settled := (⟨people, now, window.state.myVoice⟩, .played now) :: window.settled }
  | .plays _ _ => window
  | .quiets people =>
    { window with settled := (⟨people, now, window.state.myVoice⟩, .rang people) :: window.settled }
  | .holds people =>
    { window with waiting := ⟨people, now, window.state.myVoice⟩ :: window.waiting }

/-- Your own doing, between frames. -/
def becomes (window : Window) (state : GatewayState) (now : ℕ) : Window :=
  { window with
    state := state
    clock := now
    history := marks .unseen now (stops window.state state) ++ window.history }

def hears (window : Window) (frame : ServerFrame) (voice : Option VoiceCue) (replayed : Bool)
    (now : ℕ) : Window :=
  let after := apply window.state frame
  let cue := if replayed then none else voice
  let (cues, done) := window.cues.hear frame window.state after cue (!replayed) now
  done.foldl (fun window told => window.tells now told)
    { window with
      state := after
      cues := cues
      clock := now
      history := marks .stopped now (stops window.state after) ++ window.history }

/-- Moments do not go back, and the timer of a join held back comes at its moment. -/
def step (window : Window) (event : Event) : Option Window :=
  if event.now < window.clock ∨ window.cues.held.any (fun held => held.due < event.now) then none
  else
    match event with
    | .frame frame voice replayed now => some (window.hears frame voice replayed now)
    | .seat room now => some (window.becomes { window.state with myVoice := room } now)
    | .closes now => some (window.becomes .unknown now)
    | .timer now =>
      if window.cues.held.any fun held => held.due = now then
        let (cues, done) := window.cues.timer window.state.myVoice.isSome
        some (done.foldl (fun window told => window.tells now told) { window with
          cues := cues, clock := now })
      else none

end Window

def machine : Machine Window Event := ⟨⟨.unknown, .new, 0, [], [], []⟩, Window.step⟩

end Linger.SoundEvents
