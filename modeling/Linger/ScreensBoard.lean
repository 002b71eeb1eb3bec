import Linger.Wire
import Linger.StepMachine

/-! Who is sharing a screen and who is watching whom, one board behind one lock:
each operation on it is one step. What a line was sent is kept with it. -/
namespace Linger.Screens
open FiniteMap StepMachine

def maxScreensPerRoom : ℕ := 3
def screenKeyframeEveryMs : ℕ := 500
def screenWatchQueue : ℕ := 60
def maxScreenWatchBytes : ℕ := 4 * 1024 * 1024
def screenBurstBytes : ℕ := 2 * 1024 * 1024
def maxScreenSoundBytes : ℕ := 4 * 1024
def screenSoundQueue : ℕ := 10

inductive ScreenCodec
  | vp8 | avc1
  deriving DecidableEq, Repr

def ScreenCodec.fromByte (byte : UInt8) : Option ScreenCodec :=
  if byte = 1 then some .vp8 else if byte = 2 then some .avc1 else none

def screenFrameVersion : UInt8 := 1
def screenFrameHeaderBytes : ℕ := 12
def screenFrameKey : UInt8 := 1
def screenSoundKind : UInt8 := 2
def screenSoundOpus : UInt8 := 1

/-- What the server reads of a frame. -/
structure ScreenFrameHead where
  codec : ScreenCodec
  key : Bool
  deriving DecidableEq, Repr

def ScreenFrameHead.read (frame : List UInt8) : Option ScreenFrameHead :=
  if frame.length ≤ screenFrameHeaderBytes ∨ frame[0]? ≠ some screenFrameVersion then none
  else
    (frame[1]?.bind ScreenCodec.fromByte).map fun codec =>
      ⟨codec, (frame[2]?.getD 0) &&& screenFrameKey != 0⟩

/-- Whether a packet reads as sound: long enough, this kind, a format known here. -/
def screenSoundRead (packet : List UInt8) : Bool :=
  packet.length > screenFrameHeaderBytes && packet[0]? == some screenSoundKind &&
    packet[1]? == some screenSoundOpus

/-- Why a screen socket is closed by the board or its hello. -/
inductive Closing
  | notSignedIn | notInVoice | roomFull | nothingToWatch | badHello | replaced | ended | off | busy
  deriving DecidableEq, Repr

/-- What the board asks of a sharer. -/
inductive ScreenShareSays
  | want (codecs : List ScreenCodec) (sound : Option Bool)
  | keyframe (codec : ScreenCodec)
  deriving DecidableEq, Repr

/-- What the board tells a watcher. -/
inductive ScreenWatchSays
  | showing (target : Option SessionId) (codec : Option ScreenCodec) (sound : Option Bool)
  | behind
  deriving DecidableEq, Repr

/-- The ceiling a share is held to: what it may send at once to begin with, and
whether so many bytes fit at a moment. -/
structure Ceiling (β : Type) where
  full : ℕ → β
  afford : β → ℕ → ℕ → β × Bool

/-- Ten million bits a second is 1250 bytes a millisecond. -/
def bucket : Ceiling (ℕ × ℕ) where
  full now := (screenBurstBytes, now)
  afford b bytes now :=
    let budget := min (b.1 + (now - b.2) * 1250) screenBurstBytes
    if budget < bytes then ((budget, now), false) else ((budget - bytes, now), true)

structure Share (β : Type) where
  room : RoomId
  encode : List ScreenCodec
  sound : Bool
  sounding : Bool
  said : List ScreenShareSays
  socket : ℕ
  wanted : List ScreenCodec
  asked : ScreenCodec → Option ℕ
  budget : β

/-- What a watch socket is given: `frames` is every frame put on it, each with
its number among those the board was handed, `waiting` how many its socket has
not taken off, and `closed` whether that socket still takes any. -/
structure WatchLine where
  frames : List (ℕ × List UInt8)
  waiting : ℕ
  queued : ℕ
  sound : List (List UInt8)
  soundWaiting : ℕ
  said : List ScreenWatchSays
  closed : Bool

structure Watch where
  room : RoomId
  target : Option SessionId
  decode : List ScreenCodec
  codec : Option ScreenCodec
  line : WatchLine
  socket : ℕ
  gated : Bool
  sound : Bool

/-- A frame the board was handed: by whom, on which socket, and what it read. -/
structure Handed where
  session : SessionId
  socket : ℕ
  head : ScreenFrameHead
  deriving DecidableEq, Repr

/-- `closings` are the sockets hung up on, `handed` every frame handed over. -/
structure Board (β : Type) where
  shares : FMap SessionId (Share β)
  watches : FMap SessionId Watch
  sockets : ℕ
  closings : List (ℕ × Closing)
  handed : List Handed

namespace WatchLine

/-- A line as its socket makes it. -/
def fresh : WatchLine := ⟨[], 0, 0, [], 0, [], false⟩

def say (line : WatchLine) (word : ScreenWatchSays) : WatchLine :=
  { line with said := line.said ++ [word] }

inductive TrySend
  | ok | full | closed

def trySend (line : WatchLine) (n : ℕ) (frame : List UInt8) : WatchLine × TrySend :=
  if line.closed then (line, .closed)
  else if line.waiting ≥ screenWatchQueue then (line, .full)
  else ({ line with frames := line.frames ++ [(n, frame)], waiting := line.waiting + 1 }, .ok)

def trySound (line : WatchLine) (packet : List UInt8) : WatchLine × Bool :=
  if line.closed ∨ line.soundWaiting ≥ screenSoundQueue then (line, false)
  else ({ line with sound := line.sound ++ [packet], soundWaiting := line.soundWaiting + 1 }, true)

/-- What the socket at the other end does in its own time. -/
inductive Drain
  | takes
  | sends (bytes : ℕ)
  | plays
  | goes

def drain (line : WatchLine) : Drain → WatchLine
  | .takes => { line with waiting := line.waiting - 1 }
  | .sends bytes => { line with queued := line.queued - bytes }
  | .plays => { line with soundWaiting := line.soundWaiting - 1 }
  | .goes => { line with closed := true }

end WatchLine

namespace Watch

def hasRoom (w : Watch) : Bool :=
  w.line.waiting < screenWatchQueue && w.line.queued < maxScreenWatchBytes / 2

def tell (w : Watch) (word : ScreenWatchSays) : Watch := { w with line := w.line.say word }

def tellBehind (w : Watch) : Watch := w.tell .behind

/-- Its watched share ended: nothing to show. -/
def lose (w : Watch) : Watch :=
  { w with target := none, codec := none }.tell (.showing none none none)

/-- The format `choose` picked for it, told when it changed. -/
def given (w : Watch) (sharer : SessionId) (codec : Option ScreenCodec) (sound : Option Bool) :
    Watch :=
  if w.codec ≠ codec then
    { w with codec := codec, gated := true }.tell (.showing (some sharer) codec sound)
  else w

/-- A frame on its way past one watcher: what becomes of it, whether the frame
went, and whether a key frame is to be asked for on its behalf. -/
def pass (w : Watch) (session : SessionId) (head : ScreenFrameHead) (isOver : Bool) (n : ℕ)
    (frame : List UInt8) : Watch × Bool × Bool :=
  if w.target ≠ some session ∨ w.codec ≠ some head.codec then (w, false, false)
  else if isOver then ({ w with gated := true }, false, false)
  else if w.gated && !head.key then (w, false, w.hasRoom)
  else if w.line.queued + frame.length > maxScreenWatchBytes then
    ({ w with gated := true }.tellBehind, false, false)
  else
    match w.line.trySend n frame with
    | (line, .ok) =>
      ({ w with gated := false, line := { line with queued := line.queued + frame.length } },
        true, false)
    | (_, .full) => ({ w with gated := true }.tellBehind, false, false)
    | (_, .closed) => ({ w with gated := false }, false, false)

end Watch

/-- Tell the sharer what to make now: its formats, and whether its sound. -/
def Share.want {β : Type} (share : Share β) : Share β :=
  { share with
    said := share.said ++ [.want share.wanted (if share.sounding then some true else none)] }

/-- The first of the sharer's formats every watcher can play. -/
def common (encode : List ScreenCodec) (watchers : List (List ScreenCodec)) : Option ScreenCodec :=
  encode.find? fun codec => watchers.all fun decode => decode.contains codec

/-- A common format for everybody; failing that, each watcher's first playable
one, all of which the sharer makes. Answers the formats to make and each watcher's. -/
def choose (encode : List ScreenCodec) (watchers : List (List ScreenCodec)) :
    List ScreenCodec × List (Option ScreenCodec) :=
  if watchers.isEmpty then ([], [])
  else
    match common encode watchers with
    | some codec => ([codec], List.replicate watchers.length (some codec))
    | none =>
      let each := watchers.map fun decode => encode.find? fun codec => decode.contains codec
      (encode.filter fun codec => each.contains (some codec), each)

namespace Board
variable {β : Type}

def empty : Board β := ⟨∅, ∅, 0, [], []⟩

/-- The number a socket gets. -/
def nextSocket (b : Board β) : Board β × ℕ := ({ b with sockets := b.sockets + 1 }, b.sockets + 1)

def close (b : Board β) (socket : ℕ) (why : Closing) : Board β :=
  { b with closings := b.closings ++ [(socket, why)] }

def putShare (b : Board β) (session : SessionId) (share : Share β) : Board β :=
  { b with shares := b.shares.insert session share }

def putWatch (b : Board β) (session : SessionId) (w : Watch) : Board β :=
  { b with watches := b.watches.insert session w }

/-- Go over every watcher of `session`. -/
def eachWatcher (b : Board β) (session : SessionId) (f : Watch → Watch) : Board β :=
  { b with watches := b.watches.map fun _ w => if w.target = some session then f w else w }

/-- Ask for a key frame, unless one was asked for too short a while ago. -/
def askKeyframe (b : Board β) (sharer : SessionId) (codec : ScreenCodec) (now : ℕ) : Board β :=
  match b.shares[sharer]? with
  | none => b
  | some share =>
    if (share.asked codec).any fun then_ => now - then_ < screenKeyframeEveryMs then b
    else
      b.putShare sharer { share with
        asked := Function.update share.asked codec (some now)
        said := share.said ++ [.keyframe codec] }

/-- Its carrying sound, and somebody watching it having asked for it. -/
def listening (b : Board β) (sharer : SessionId) : Bool :=
  (b.shares[sharer]?).any Share.sound &&
    (vals b.watches).any fun w => w.sound && w.target = some sharer

def sounds (b : Board β) (sharer : SessionId) : Option Bool :=
  if (b.shares[sharer]?).any Share.sound then some true else none

/-- The sessions that watch `sharer`, sorted. -/
def watching (b : Board β) (sharer : SessionId) : List SessionId :=
  (b.watches.toList.filter fun e => e.2.target = some sharer).map Prod.fst

def decodeOf (b : Board β) (session : SessionId) : List ScreenCodec :=
  ((b.watches[session]?).map Watch.decode).getD []

/-- One watcher's turn while a share is settled, with the formats to ask key
frames in so far. -/
def settleOne (sharer : SessionId) (sound : Option Bool) (so : Board β × List ScreenCodec)
    (next : SessionId × Option ScreenCodec) : Board β × List ScreenCodec :=
  match so.1.watches[next.1]? with
  | none => so
  | some w =>
    let w := w.given sharer next.2 sound
    (so.1.putWatch next.1 w,
      match w.gated, w.codec with
      | true, some codec => if so.2.contains codec then so.2 else so.2 ++ [codec]
      | _, _ => so.2)

/-- Tell the sharer when what it is to make changed. -/
def tellWanted (b : Board β) (sharer : SessionId) (wanted : List ScreenCodec) (listening : Bool) :
    Board β :=
  match b.shares[sharer]? with
  | none => b
  | some share =>
    if share.wanted ≠ wanted ∨ share.sounding ≠ listening then
      b.putShare sharer { share with wanted := wanted, sounding := listening }.want
    else b

/-- Work out a share's formats again from who watches it, and tell whom it changes. -/
def settle (b : Board β) (sharer : SessionId) (now : ℕ) : Board β :=
  match b.shares[sharer]? with
  | none => b
  | some share =>
    let watching := b.watching sharer
    let chosen := choose share.encode (watching.map b.decodeOf)
    let so := (watching.zip chosen.2).foldl (settleOne sharer (b.sounds sharer)) (b, [])
    let b := so.1.tellWanted sharer chosen.1 (so.1.listening sharer)
    so.2.foldl (fun b codec => b.askKeyframe sharer codec now) b

/-- How many others share in a room. -/
def othersIn (b : Board β) (session : SessionId) (room : RoomId) : ℕ :=
  (b.shares.toList.filter fun e => e.2.room = room ∧ e.1 ≠ session).length

/-- The socket something replaced is hung up on. -/
def closeReplaced (b : Board β) (old : Option ℕ) : Board β :=
  match old with
  | some socket => b.close socket .replaced
  | none => b

/-- Start sharing, or share again. Watchers from before carry on: a new share is
a new encoder, so each waits for a key frame in a format it is given afresh. -/
def share (C : Ceiling β) (b : Board β) (session : SessionId) (room : RoomId)
    (encode : List ScreenCodec) (sound : Bool) (now : ℕ) : Board β × Except Closing ℕ :=
  if b.othersIn session room ≥ maxScreensPerRoom then (b, .error .roomFull)
  else
    let old := (b.shares[session]?).map Share.socket
    let (b, socket) := b.nextSocket
    let share : Share β :=
      { room := room, encode := encode, sound := sound, sounding := false, said := []
        socket := socket, wanted := [], asked := fun _ => none, budget := C.full now }
    let b := b.closeReplaced old
    let b := b.eachWatcher session fun w => { w with codec := none }
    let b := b.putShare session share.want
    (b.settle session now, .ok socket)

/-- A share socket closed: its watchers stay, with nothing to show. -/
def unshare (b : Board β) (session : SessionId) (socket : ℕ) : Board β × Option RoomId :=
  match b.shares[session]? with
  | none => (b, none)
  | some share =>
    if share.socket ≠ socket then (b, none)
    else
      let b := { b with shares := b.shares.erase session }
      (b.eachWatcher session Watch.lose, some share.room)

/-- One that can play nothing of a share is told so after it was settled. -/
def tellUnplayable (b : Board β) (session target : SessionId) : Board β :=
  match b.watches[session]? with
  | none => b
  | some w =>
    if w.codec = none then
      b.putWatch session (w.tell (.showing (some target) none (b.sounds target)))
    else b

/-- The share a watcher turned away from is settled, unless it turned back to it. -/
def settleBefore (b : Board β) (before : Option SessionId) (target : SessionId) (now : ℕ) :
    Board β :=
  match before.filter fun before => before ≠ target with
  | some before => b.settle before now
  | none => b

def sharesIn (b : Board β) (target : SessionId) (room : RoomId) : Bool :=
  (b.shares[target]?).any fun share => share.room = room

/-- A watch that turns from one share to another: both are settled. -/
def turnTo (b : Board β) (session : SessionId) (w : Watch) (before : Option SessionId)
    (target : SessionId) (now : ℕ) : Board β :=
  let b := b.putWatch session w
  let b := b.settleBefore before target now
  let b := b.settle target now
  b.tellUnplayable session target

/-- Start watching, on a new line, or move the watching there. -/
def watch (b : Board β) (session : SessionId) (room : RoomId) (target : SessionId)
    (decode : List ScreenCodec) (sound : Bool) (now : ℕ) : Board β × Except Closing ℕ :=
  if target = session ∨ !b.sharesIn target room then (b, .error .nothingToWatch)
  else
    let old := b.watches[session]?
    let (b, socket) := b.nextSocket
    let w : Watch :=
      { room := room, target := some target, decode := decode, codec := none
        line := WatchLine.fresh, socket := socket, gated := true, sound := sound }
    let b := b.closeReplaced (old.map Watch.socket)
    (b.turnTo session w (old.bind Watch.target) target now, .ok socket)

/-- The watch a socket is for, when it is still that socket's. -/
def watchOn (b : Board β) (session : SessionId) (socket : ℕ) : Option Watch :=
  (b.watches[session]?).filter fun w => w.socket = socket

/-- Watch another share on the same socket, or none when it isn't there to watch. -/
def switch (b : Board β) (session : SessionId) (socket : ℕ) (target : SessionId)
    (decode : Option (List ScreenCodec)) (now : ℕ) : Board β × Except Closing RoomId :=
  match b.watchOn session socket with
  | none => (b, .error .ended)
  | some w =>
    let before := w.target
    let canWatch := target ≠ session ∧ b.sharesIn target w.room
    let w := { w with
      decode := decode.getD w.decode
      target := if canWatch then some target else none
      codec := none
      gated := true }
    if canWatch then (b.turnTo session w before target now, .ok w.room)
    else
      ((b.putWatch session (w.tell (.showing none none none))).settleBefore before target now,
        .error .nothingToWatch)

def settleFor (b : Board β) (target : Option SessionId) (now : ℕ) : Board β :=
  match target with
  | some target => b.settle target now
  | none => b

/-- A watch socket closed. -/
def unwatch (b : Board β) (session : SessionId) (socket : ℕ) (now : ℕ) : Board β × Option RoomId :=
  match b.watchOn session socket with
  | none => (b, none)
  | some w =>
    let b := { b with watches := b.watches.erase session }
    (b.settleFor w.target now, some w.room)

/-- A watcher lost its place: nothing goes to it until a key frame. -/
def keyframe (b : Board β) (session : SessionId) (socket : ℕ) (now : ℕ) : Board β :=
  match b.watchOn session socket with
  | none => b
  | some w =>
    let b := b.putWatch session { w with gated := true }
    match w.target, w.codec with
    | some target, some codec => b.askKeyframe target codec now
    | _, _ => b

/-- A watcher turned the sound on or off: its sharer is told when that changes
whether anybody wants it. -/
def hear (b : Board β) (session : SessionId) (socket : ℕ) (on : Bool) : Board β :=
  match b.watchOn session socket with
  | none => b
  | some w =>
    let b := b.putWatch session { w with sound := on }
    match w.target.bind fun target => (b.shares[target]?).map fun share => (target, share) with
    | none => b
    | some (target, share) =>
      if share.sounding ≠ b.listening target then
        b.putShare target { share with sounding := b.listening target }.want
      else b

/-- Sound from a share goes to the watchers who asked for it, or nowhere. -/
def soundAt (C : Ceiling β) (b : Board β) (session : SessionId) (socket : ℕ) (packet : List UInt8)
    (now : ℕ) : Board β × Bool :=
  if packet.length > maxScreenSoundBytes ∨ !screenSoundRead packet then (b, false)
  else
    match (b.shares[session]?).filter fun share => share.socket = socket ∧ share.sound with
    | none => (b, false)
    | some share =>
      let paid := C.afford share.budget packet.length now
      let b := b.putShare session { share with budget := paid.1 }
      if !paid.2 then (b, false)
      else
        let hears (w : Watch) : Bool := w.sound && w.target = some session
        ({ b with watches := b.watches.map fun _ w =>
            if hears w then { w with line := (w.line.trySound packet).1 } else w },
          (vals b.watches).any fun w => hears w && (w.line.trySound packet).2)

def hand (b : Board β) (h : Handed) : Board β := { b with handed := b.handed ++ [h] }

def passAll (b : Board β) (session : SessionId) (head : ScreenFrameHead) (isOver : Bool) (n : ℕ)
    (frame : List UInt8) : Board β :=
  { b with watches := b.watches.map fun _ w => (w.pass session head isOver n frame).1 }

/-- A frame from a share goes to each of its watchers in that format, unless
the share is over its ceiling. -/
def frameAt (C : Ceiling β) (b : Board β) (session : SessionId) (socket : ℕ) (frame : List UInt8)
    (now : ℕ) : Board β × Bool :=
  match ScreenFrameHead.read frame with
  | none => (b, false)
  | some head =>
    let n := b.handed.length
    let b := b.hand ⟨session, socket, head⟩
    match (b.shares[session]?).filter fun share => share.socket = socket with
    | none => (b, false)
    | some share =>
      if !share.wanted.contains head.codec then (b, false)
      else
        let paid := C.afford share.budget frame.length now
        let passed (w : Watch) := w.pass session head (!paid.2) n frame
        let went := (vals b.watches).any fun w => (passed w).2.1
        let behind := (vals b.watches).any fun w => (passed w).2.2
        let b := b.putShare session { share with budget := paid.1 }
        let b := b.passAll session head (!paid.2) n frame
        (if behind && paid.2 then b.askKeyframe session head.codec now else b, went)

/-- A session left voice, or ended: its share and its watching end with it. -/
def leave (b : Board β) (session : SessionId) (now : ℕ) : Board β × Bool :=
  let (b, shared) := match b.shares[session]? with
    | some share =>
      let b := { b with shares := b.shares.erase session }
      ((b.close share.socket .ended).eachWatcher session Watch.lose, true)
    | none => (b, false)
  match b.watches[session]? with
  | some w =>
    let b := { b with watches := b.watches.erase session }
    ((b.close w.socket .ended).settleFor w.target now, true)
  | none => (b, shared)

/-- What a watcher's socket does with its line. -/
def drain (b : Board β) (session : SessionId) (d : WatchLine.Drain) : Board β :=
  { b with watches := b.watches.modify session fun w => { w with line := w.line.drain d } }

end Board

inductive Act
  | share (session : SessionId) (room : RoomId) (encode : List ScreenCodec) (sound : Bool) (now : ℕ)
  | unshare (session : SessionId) (socket : ℕ)
  | watch (session : SessionId) (room : RoomId) (target : SessionId) (decode : List ScreenCodec)
      (sound : Bool) (now : ℕ)
  | switch (session : SessionId) (socket : ℕ) (target : SessionId)
      (decode : Option (List ScreenCodec)) (now : ℕ)
  | unwatch (session : SessionId) (socket : ℕ) (now : ℕ)
  | keyframe (session : SessionId) (socket : ℕ) (now : ℕ)
  | hear (session : SessionId) (socket : ℕ) (on : Bool)
  | sound (session : SessionId) (socket : ℕ) (packet : List UInt8) (now : ℕ)
  | frame (session : SessionId) (socket : ℕ) (frame : List UInt8) (now : ℕ)
  | leave (session : SessionId) (now : ℕ)
  | drain (session : SessionId) (d : WatchLine.Drain)
  | moves (session : SessionId) (room : Option RoomId) (now : ℕ)

/-- The board, and the room each session is in. -/
structure Seated (β : Type) where
  board : Board β
  seats : FMap SessionId RoomId

section Run
variable {β : Type}

/-- Whoever changes rooms leaves the board. -/
def step (C : Ceiling β) (st : Seated β) : Act → Option (Seated β)
  | .share session room encode sound now =>
    some { st with board := (st.board.share C session room encode sound now).1 }
  | .unshare session socket => some { st with board := (st.board.unshare session socket).1 }
  | .watch session room target decode sound now =>
    some { st with board := (st.board.watch session room target decode sound now).1 }
  | .switch session socket target decode now =>
    some { st with board := (st.board.switch session socket target decode now).1 }
  | .unwatch session socket now =>
    some { st with board := (st.board.unwatch session socket now).1 }
  | .keyframe session socket now =>
    some { st with board := st.board.keyframe session socket now }
  | .hear session socket on => some { st with board := st.board.hear session socket on }
  | .sound session socket packet now =>
    some { st with board := (st.board.soundAt C session socket packet now).1 }
  | .frame session socket frame now =>
    some { st with board := (st.board.frameAt C session socket frame now).1 }
  | .leave session now => some { st with board := (st.board.leave session now).1 }
  | .drain session d => some { st with board := st.board.drain session d }
  | .moves session room now =>
    some ⟨(st.board.leave session now).1, match room with
      | some room => st.seats.insert session room
      | none => st.seats.erase session⟩

def machine (C : Ceiling β) : Machine (Seated β) Act := ⟨⟨Board.empty, ∅⟩, step C⟩

/-- Shares and watches are started in the room their session is in. -/
def InRoom (st : Seated β) : Act → Prop
  | .share session room _ _ _ => st.seats[session]? = some room
  | .watch session room _ _ _ _ => st.seats[session]? = some room
  | _ => True

instance decidableInRoom (st : Seated β) (a : Act) : Decidable (InRoom st a) := by
  cases a <;> unfold InRoom <;> infer_instance

end Run
end Linger.Screens
