import Linger.SessionReplay
import Linger.Gateway
import Linger.StepMachine

/-! One session's task, the sockets it has had and the app behind them: every
order in which the bus, the sockets, the app and the clock can come in. -/
namespace Linger
open FiniteMap StepMachine

def busFrames : ℕ := 1024
def socketQueueFrames : ℕ := 256

/-- What waits for a socket: a frame with its number, or one that has none. -/
inductive Item
  | control
  | frame (n : ℕ) (event : ServerEvent)

/-- A socket's queue, what its writer has put on the wire, and the resume it
was opened with. -/
structure Socket where
  resumeFrom : ℕ
  isResume : Bool
  attached : Bool
  queue : List Item
  wire : List Item
  writerGone : Bool

def Socket.full (socket : Socket) : Bool := socket.queue.length ≥ socketQueueFrames

def Socket.push (socket : Socket) (item : Item) : Socket :=
  { socket with queue := socket.queue ++ [item] }

/-- `taken` is every event read from the bus with what the session made of it,
and `log` what it numbered, the first 1. -/
structure Session where
  bus : List Fanout
  taken : List (Fanout × Option ServerEvent)
  log : List ServerEvent
  seq : ℕ
  kept : Replay
  sink : Option ℕ
  closer : Option ℕ
  detachedAt : Option ℕ
  replaying : Option (ℕ × List Item)
  ended : Bool
  hungUp : List ℕ
  now : ℕ
  sockets : ℕ → Option Socket
  current : Option ℕ
  identified : Bool
  got : List (ℕ × ServerEvent)

namespace Session

inductive Act
  | publish (f : Fanout)
  | recv (g : Gateway) (told : Option Told)
  | attach (k : ℕ)
  | replay
  | detach (k : ℕ)
  | close
  | windowCloses
  | handlesGone
  | tick (ms : ℕ)
  | connect (k : ℕ)
  | control (k : ℕ)
  | write (k : ℕ)
  | writerStops (k : ℕ)
  | receive
  | lose

/-- The number of the last frame the app received, which it resumes from. -/
def last (s : Session) : ℕ := (s.got.getLast?.map Prod.fst).getD 0

def put (s : Session) (k : ℕ) (socket : Socket) : Session :=
  { s with sockets := Function.update s.sockets k (some socket) }

/-- The socket attached, unless there is none, or its queue is full or gone. -/
def attachedSocket (s : Session) : Option (ℕ × Socket) :=
  s.sink.bind fun k => (s.sockets k).bind fun socket =>
    if socket.full ∨ socket.writerGone then none else some (k, socket)

/-- The session numbers an event it can see, keeps it and sends it. A full
queue means a dead socket: it is detached, and a resume recovers what it missed. -/
def number (s : Session) (event : ServerEvent) : Session :=
  let seq := s.seq + 1
  let s := { s with
    seq := seq
    log := s.log ++ [event]
    kept := s.kept.keep seq event s.now s.detachedAt.isNone }
  match s.attachedSocket with
  | some (k, socket) => s.put k (socket.push (.frame seq event))
  | none =>
    if s.sink.isSome then { s with sink := none, closer := none, detachedAt := some s.now } else s

/-- What the session does with the next thing it reads from the bus. A session
the bus has lapped ends. -/
def recv (userId : UserId) (sessionId : SessionId) (g : Gateway) (told : Option Told)
    (s : Session) : Option Session :=
  match s.bus[s.taken.length]? with
  | none => none
  | some f =>
    if s.bus.length - s.taken.length > busFrames then some { s with ended := true }
    else
      let json := (g.visibleTo userId sessionId { f with told := told }).1
      let s := { s with taken := s.taken ++ [(f, json)] }
      match json with
      | none => some s
      | some event => some (s.number event)

/-- The session ends, and hangs up on the socket it is attached to. -/
def hangUp (s : Session) : Session :=
  { s with ended := true, hungUp := s.hungUp ++ s.closer.toList, closer := none }

/-- A socket is handed over. The session ends when the replay can't be whole. -/
def attach (s : Session) (k : ℕ) : Option Session :=
  (s.sockets k).bind fun socket =>
    if socket.attached then none
    else
      let s := s.put k { socket with attached := true }
      match s.kept.after socket.resumeFrom with
      | none => some s.hangUp
      | some frames =>
        let resumed := if socket.isResume then [Item.control] else []
        some { s with replaying := some (k, resumed ++ frames.map fun e => .frame e.1 e.2) }

/-- The next frame of a replay waits for room in the socket's queue. It fails
when the socket's writer is gone, short of the first that says it resumed. -/
def replay (s : Session) : Option Session :=
  s.replaying.bind fun r =>
    match r.2 with
    | [] => some { s with
        replaying := none, sink := some r.1, closer := some r.1, detachedAt := none }
    | item :: rest =>
      (s.sockets r.1).bind fun socket =>
        if socket.writerGone then
          match item with
          | .control => some { s with replaying := some (r.1, rest) }
          | .frame _ _ => some { s with replaying := none }
        else if socket.full then none
        else some ({ s with replaying := some (r.1, rest) }.put r.1 (socket.push item))

def detach (s : Session) (k : ℕ) : Session :=
  if s.sink = some k then { s with sink := none, closer := none, detachedAt := some s.now } else s

/-- Its person was removed, or their sign-ins ended: said first, if anybody is attached. -/
def close (s : Session) : Option Session :=
  match s.sink.bind fun k => (s.sockets k).map fun socket => (k, socket) with
  | none => some s.hangUp
  | some (k, socket) =>
    if socket.writerGone then some s.hangUp
    else if socket.full then none
    else some (s.put k (socket.push .control)).hangUp

/-- The session's own loop, which takes nothing else on during a replay. -/
def listens (s : Session) (next : Option Session) : Option Session :=
  if s.ended ∨ s.replaying.isSome then none else next

/-- The app takes the next frame off the wire of the socket it keeps. -/
def receive (s : Session) : Option Session :=
  s.current.bind fun k => (s.sockets k).bind fun socket =>
    match socket.wire with
    | [] => none
    | item :: wire =>
      let s := s.put k { socket with wire := wire }
      match item with
      | .control => some s
      | .frame n event => some { s with got := s.got ++ [(n, event)] }

def step (userId : UserId) (sessionId : SessionId) (s : Session) : Act → Option Session
  | .publish f => some { s with bus := s.bus ++ [f] }
  | .recv g told => s.listens (s.recv userId sessionId g told)
  | .attach k => s.listens (s.attach k)
  | .replay => if s.ended then none else s.replay
  | .detach k => s.listens (some (s.detach k))
  | .close => s.listens s.close
  | .windowCloses =>
    s.listens (s.detachedAt.bind fun since =>
      if since + resumeWindowMs ≤ s.now then some { s with ended := true } else none)
  | .handlesGone => s.listens (some { s with ended := true })
  | .tick ms => some { s with now := s.now + ms }
  | .connect k =>
    -- the app lets go of the socket it kept and opens another
    match s.sockets k with
    | some _ => none
    | none => some ({ s with current := some k, identified := true }.put k
        ⟨s.last, s.identified, false, [], [], false⟩)
  | .control k => (s.sockets k).bind fun socket =>
    if socket.full ∨ socket.writerGone then none else some (s.put k (socket.push .control))
  | .write k => (s.sockets k).bind fun socket =>
    match socket.queue with
    | [] => none
    | item :: queue =>
      if socket.writerGone then none
      else some (s.put k { socket with queue := queue, wire := socket.wire ++ [item] })
  | .writerStops k => (s.sockets k).map fun socket => s.put k { socket with writerGone := true }
  | .receive => s.receive
  | .lose => some { s with current := none }

/-- A session as it is spawned, to keep at most `most` frames. -/
def spawn (most : ℕ) : Session :=
  { bus := [], taken := [], log := [], seq := 0, kept := Replay.new most, sink := none
    closer := none, detachedAt := some 0, replaying := none, ended := false, hungUp := []
    now := 0, sockets := fun _ => none, current := none, identified := false, got := [] }

def machine (most : ℕ) (userId : UserId) (sessionId : SessionId) : Machine Session Act :=
  ⟨spawn most, step userId sessionId⟩

end Session
end Linger
