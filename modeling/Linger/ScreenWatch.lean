import Linger.ScreensBoard
import Linger.TaskPool

/-! Watching somebody's screen, in one window: presses, the checks a start waits for, token fetches,
retry timers, sockets and what the server says on them, all under way at once. -/
namespace Linger.ScreenWatch
open FiniteMap StepMachine TaskPool
open Screens (ScreenCodec)

structure Options where
  server : ℕ
  sessionId : ℕ
  target : ℕ
  place : ℕ
  who : ℕ
deriving DecidableEq

inductive Status where
  | connecting
  | waiting
  | showing
  | unplayable
  | ended
  | lost
deriving DecidableEq

structure ScreenWatchState where
  server : ℕ
  place : ℕ
  who : ℕ
  target : ℕ
  status : Status
  size : ℕ × ℕ
  awaitsNext : Bool
  behind : Bool
deriving DecidableEq

structure Watching where
  server : ℕ
  sessionId : ℕ
  target : ℕ
  decode : List ScreenCodec
  place : ℕ
  who : ℕ
  socket : Option ℕ
  attempts : ℕ
  codec : Option ScreenCodec
  behindTimer : Bool
  done : Bool
deriving DecidableEq

inductive ReadyState where
  | connecting
  | opened
  | closing
  | closed
deriving DecidableEq

/-- A watch's socket: the share that the server's words now coming are about, and those asked for
since, the oldest first. The hello asks for the first. -/
structure Socket where
  watch : ℕ
  ready : ReadyState
  about : ℕ
  asks : List ℕ
deriving DecidableEq

/-- The share asked for last. -/
def Socket.names (socket : Socket) : ℕ := (socket.asks.getLast?).getD socket.about

/-- What a start, or a watch, waits for. -/
inductive Task where
  | checking (options : Options)
  | connecting (watch : ℕ)
  | retrying (watch : ℕ)
deriving DecidableEq

def Task.watch : Task → Option ℕ
  | .checking _ => none
  | .connecting watch | .retrying watch => some watch

/-- What the last press asked for, if neither a stop came after it nor its watch's own end: a start
still waiting for its checks, or a watch. -/
inductive Wanted where
  | nothing
  | waits (task : ℕ)
  | watches (options : Options)
deriving DecidableEq

/-- What a screen socket's closing code means. -/
inductive ScreenClosing where
  | notSignedIn
  | notInVoice
  | roomFull
  | nothingToWatch
  | badHello
  | replaced
  | ended
  | off
  | busy
  | dropped
deriving DecidableEq

/-- What the server says. A share shown is the one its last words were about, or the next one asked
for. -/
inductive Said where
  | behind
  | showing (target : Option ℕ) (codec : Option ScreenCodec) (answer : Bool)
deriving DecidableEq

/-- One window. What is watched, and the sockets it opened, stay in it once they are over. -/
structure Window where
  shown : Option ScreenWatchState
  running : Option ℕ
  watchings : FMap ℕ Watching
  watched : ℕ
  sockets : FMap ℕ Socket
  opened : ℕ
  tasks : FMap ℕ Task
  begun : ℕ
  wanted : Wanted

/-- How many times a dropped socket is tried again before the app gives up. -/
def retries : ℕ := 5

def watchOver (status : Status) : Bool := status = .ended || status = .lost

/-- The state as the screens read it, at `status`. -/
def Watching.state (watch : Watching) (status : Status) (size : ℕ × ℕ) : ScreenWatchState :=
  ⟨watch.server, watch.place, watch.who, watch.target, status, size, false, false⟩

namespace Window

def new : Window := ⟨none, none, ∅, 0, ∅, 0, ∅, 0, .nothing⟩

def sets (window : Window) (id : ℕ) (watch : Watching) : Window :=
  { window with watchings := window.watchings.insert id watch }

def begins (window : Window) (task : Task) : Window :=
  { window with tasks := window.tasks.insert window.begun task, begun := window.begun + 1 }

/-- `WebSocket.close`. -/
def close (window : Window) (socket : Option ℕ) : Window :=
  match socket with
  | none => window
  | some sid => { window with
      sockets := window.sockets.modify sid fun socket => { socket with ready := .closed } }

def shows (window : Window) (watch : Watching) : Bool := window.shown.any (·.server = watch.server)

/-- Only the watch that's running says anything to the screens. -/
def finish (window : Window) (id : ℕ) (clear : Bool) : Window :=
  match window.watchings[id]? with
  | none => window
  | some watch =>
    if watch.done then window
    else
      let mine : Bool := window.running = some id
      { (window.close watch.socket).sets id
          { watch with done := true, behindTimer := false, codec := none, socket := none } with
        running := if mine then none else window.running
        shown := if clear && mine && window.shows watch then none else window.shown }

def ends (window : Window) (id : ℕ) (status : Status) : Window :=
  match window.watchings[id]? with
  | none => window
  | some watch =>
    let said := if window.running = some id ∧ window.shows watch then
      { window with shown := window.shown.map ({ · with status := status }) } else window
    said.finish id false

def finishRunning (window : Window) : Window :=
  match window.running with
  | none => window
  | some id => window.finish id true

/-- As far as the token. -/
def connect (window : Window) (id : ℕ) : Window :=
  match window.watchings[id]? with
  | none => window
  | some watch => if watch.done then window else window.begins (.connecting id)

/-- With the token. -/
def open_ (window : Window) (id : ℕ) : Window :=
  match window.watchings[id]? with
  | none => window
  | some watch =>
    if watch.done then window
    else { window.sets id { watch with socket := some window.opened } with
      sockets := window.sockets.insert window.opened ⟨id, .connecting, watch.target, []⟩
      opened := window.opened + 1 }

/-- The watch's own socket, when it is open. -/
def asking (window : Window) (watch : Watching) : Option (ℕ × Socket) :=
  watch.socket.bind fun sid => (window.sockets[sid]?).bind fun socket =>
    if socket.ready = .opened then some (sid, socket) else none

def ask (window : Window) (watch : Watching) (target : ℕ) : Window :=
  match window.asking watch with
  | none => window
  | some (sid, socket) =>
    { window with
      sockets := window.sockets.insert sid { socket with asks := socket.asks ++ [target] } }

def switchTo (window : Window) (id : ℕ) (target : ℕ) : Window :=
  match window.watchings[id]? with
  | none => window
  | some watch =>
    if watch.done then window
    else
      let aimed := { watch with target := target, codec := none }
      let next := { window.sets id aimed with shown := some (aimed.state .connecting (0, 0)) }
      if watch.socket.any fun sid => (window.sockets[sid]?).any (·.ready = .connecting) then
        -- Its hello, sent once it opens, names the share before: one that names this one goes
        -- instead.
        ((next.sets id { aimed with socket := none }).close watch.socket).connect id
      else next.ask aimed target

def closed (window : Window) (sid : ℕ) (why : ScreenClosing) : Window :=
  match window.sockets[sid]? with
  | none => window
  | some socket =>
    match window.watchings[socket.watch]? with
    | none => window
    | some watch =>
      if watch.socket ≠ some sid ∨ watch.done then window
      else
        let gone := { watch with socket := none }
        let next := window.sets socket.watch gone
        if why = .dropped ∧ watch.attempts < retries then
          (next.sets socket.watch { gone with attempts := watch.attempts + 1 }).begins
            (.retrying socket.watch)
        else if watch.attempts = 0 ∧ (why = .ended ∨ why = .replaced) then
          next.finish socket.watch true
        else next.ends socket.watch (if why = .dropped ∨ why = .busy ∨ 0 < watch.attempts then
          .lost else .ended)

/-- What a watch does about what the server says on its socket. -/
def said (window : Window) (id : ℕ) (watch : Watching) : Said → Window
  | .behind => { window.sets id { watch with behindTimer := true } with
      shown :=
        if window.shows watch then window.shown.map ({ · with behind := true }) else window.shown }
  | .showing none _ _ => { window.sets id { watch with attempts := 0, codec := none } with
      shown := window.shown.map ({ · with status := .ended }) }
  | .showing (some target) none _ =>
    let aimed := { watch with attempts := 0, target := target, codec := none }
    { window.sets id aimed with shown := some (aimed.state .unplayable (0, 0)) }
  | .showing (some target) (some codec) _ =>
    let aimed := { watch with attempts := 0, target := target, codec := some codec }
    { window.sets id aimed with
      shown := if window.shown.any fun shown => shown.target = target ∧ shown.status = .showing then
        window.shown
        else some (aimed.state .waiting ((window.shown.map ScreenWatchState.size).getD (0, 0))) }

/-- The player broke on a format for good. -/
def givesUp (window : Window) (id : ℕ) (watch : Watching) (codec : ScreenCodec) : Window :=
  let without := { watch with decode := watch.decode.filter (· ≠ codec), codec := none }
  (window.sets id without).ask without watch.target

def picture (window : Window) (size : ℕ × ℕ) : Window :=
  { window with shown := window.shown.map fun shown =>
      if shown.status ≠ .showing ∨ shown.size ≠ size then
        { shown with status := .showing, size := size } else shown }

def startWatching (window : Window) (options : Options) : Window :=
  let new := { window.finishRunning.begins (.checking options) with wanted := .waits window.begun }
  match window.running with
  | none => new
  | some id =>
    match window.watchings[id]? with
    | none => new
    | some watch =>
      if watch.server = options.server ∧ watch.sessionId = options.sessionId then
        { (window.sets id { watch with place := options.place, who := options.who }).switchTo id
            options.target with
          wanted := .watches options }
      else new

/-- Its checks answered. -/
def checked (window : Window) (task : ℕ) (options : Options) (decode : List ScreenCodec) : Window :=
  let next := { window with tasks := window.tasks.erase task }.finishRunning
  let state := fun status =>
    some ⟨options.server, options.place, options.who, options.target, status, (0, 0), false, false⟩
  let mine : Bool := window.wanted = .waits task
  if decode = [] then
    { next with running := none, shown := state .unplayable, wanted := if mine then
      .nothing else window.wanted }
  else
    { next.sets next.watched ⟨options.server, options.sessionId, options.target, decode,
      options.place, options.who,
        none, 0, none, false, false⟩ with
      watched := next.watched + 1, running := some next.watched, shown := state .connecting
      wanted := if mine then .watches options else window.wanted }.connect next.watched

def stopWatching (window : Window) : Window := { window.finishRunning with wanted := .nothing }

/-- Forget an ended watch, when its screen is closed. -/
def closeEnded (window : Window) : Window :=
  if window.running = none then { window with shown := none } else window

def awaitNext (window : Window) : Window :=
  { window with shown := window.shown.map fun shown =>
      if watchOver shown.status then { shown with awaitsNext := true } else shown }

def watchNext (window : Window) (server sessionId target : ℕ) : Window :=
  match window.shown with
  | none => window
  | some shown =>
    if shown.awaitsNext ∧ shown.server = server then
      { window with shown := some { shown with awaitsNext := false } }.startWatching
        ⟨server, sessionId, target, shown.place, shown.who⟩
    else window

/-- A press asks for nothing more once its watch has ended by itself. -/
def settle (before after : Window) : Window :=
  match before.running, after.running, before.wanted with
  | some _, none, .watches _ => { after with wanted := .nothing }
  | _, _, _ => after

end Window

/-- What the server may say on a socket now, and where its words then are. -/
def Socket.hears (socket : Socket) : Said → Option Socket
  | .behind => some socket
  | .showing target _ false => if target.all (· = socket.about) then some socket else none
  | .showing target _ true =>
    match socket.asks with
    | [] => none
    | ask :: asks =>
      if target.all (· = ask) then some { socket with about := ask, asks := asks } else none

inductive Event where
  | startWatching (options : Options)
  | checked (task : ℕ) (decode : List ScreenCodec)
  | stopWatching
  /-- Close: a stop, and the ended screen forgotten. -/
  | closes
  | awaitNext
  | watchNext (server sessionId target : ℕ)
  | token (task : ℕ) (got : Bool)
  | retries (task : ℕ)
  | opens (sid : ℕ)
  | closing (sid : ℕ)
  | closed (sid : ℕ) (why : ScreenClosing)
  | silent (sid : ℕ)
  | said (sid : ℕ) (said : Said)
  | givesUp (id : ℕ)
  | picture (id : ℕ) (size : ℕ × ℕ)
  | behindEnds (id : ℕ)
deriving DecidableEq

namespace Window

def turns (window : Window) (sid : ℕ) (socket : Socket) (ready : ReadyState) : Window :=
  { window with sockets := window.sockets.insert sid { socket with ready := ready } }

def step (window : Window) : Event → Option Window
  | .startWatching options => some (window.startWatching options)
  | .checked task decode =>
    match window.tasks[task]? with
    | some (.checking options) => some (window.checked task options decode)
    | _ => none
  | .stopWatching => some window.stopWatching
  | .closes => some window.stopWatching.closeEnded
  | .awaitNext => some window.awaitNext
  | .watchNext server sessionId target => some (window.watchNext server sessionId target)
  | .token task got =>
    match window.tasks[task]? with
    | some (.connecting id) =>
      let next := { window with tasks := window.tasks.erase task }
      some (if got then next.open_ id else window.settle (next.ends id .ended))
    | _ => none
  | .retries task =>
    match window.tasks[task]? with
    | some (.retrying id) => some ({ window with tasks := window.tasks.erase task }.connect id)
    | _ => none
  | .opens sid => (window.sockets[sid]?).bind fun socket =>
    if socket.ready = .connecting then some (window.turns sid socket .opened) else none
  | .closing sid => (window.sockets[sid]?).bind fun socket =>
    if socket.ready = .connecting ∨ socket.ready = .opened then
      some (window.turns sid socket .closing) else none
  | .closed sid why => (window.sockets[sid]?).bind fun socket =>
    if socket.ready = .closing ∨ socket.ready = .closed then
      some (window.settle ((window.closed sid why).close (some sid)))
    else none
  | .silent sid => (window.sockets[sid]?).map fun _ =>
    window.settle ((window.closed sid .dropped).close (some sid))
  | .said sid said => (window.sockets[sid]?).bind fun socket =>
    if socket.ready = .opened ∨ socket.ready = .closed then
      (socket.hears said).bind fun heard => (window.watchings[socket.watch]?).map fun watch =>
        let next := { window with sockets := window.sockets.insert sid heard }
        if watch.socket = some sid then next.said socket.watch watch said else next
    else none
  | .givesUp id => (window.watchings[id]?).bind fun watch =>
    if watch.done then some window else watch.codec.map (window.givesUp id watch)
  | .picture id size => (window.watchings[id]?).bind fun watch =>
    if watch.done then some window else watch.codec.map fun _ => window.picture size
  | .behindEnds id => (window.watchings[id]?).bind fun watch =>
    if watch.behindTimer then
      some { window.sets id { watch with behindTimer := false } with
        shown := if ¬ watch.done ∧ window.shows watch then
          window.shown.map ({ · with behind := false }) else window.shown }
    else none

end Window

def machine : Machine Window Event := ⟨.new, Window.step⟩

/-- The watch an event is about. -/
def Event.watch (window : Window) : Event → Option ℕ
  | .token task _ | .retries task => (window.tasks[task]?).bind Task.watch
  | .opens sid | .closing sid | .closed sid _ | .silent sid | .said sid _ =>
    (window.sockets[sid]?).map Socket.watch
  | .givesUp id | .picture id _ | .behindEnds id => some id
  | _ => none

end Linger.ScreenWatch
