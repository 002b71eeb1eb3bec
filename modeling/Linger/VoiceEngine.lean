import Linger.StepMachine
import Linger.TaskPool

/-! The voice engine: joining, leaving, the server's offers, a connection started afresh and the
controls, under way at once. Each time `inner` is locked is one step, and so is each thing a call
waits for. -/
namespace Linger.VoiceEngine
open FiniteMap StepMachine TaskPool

abbrev RoomId := ℕ
abbrev DevicesId := ℕ
abbrev ConnId := ℕ

structure VoiceControls where
  muted : Bool
  deafened : Bool
deriving DecidableEq

def VoiceControls.normalized (controls : VoiceControls) : VoiceControls :=
  ⟨controls.muted || controls.deafened, controls.deafened⟩

/-- A sending loop: the devices whose source it reads, and whether it was aborted. -/
structure Pump where
  source : DevicesId
  aborted : Bool
deriving DecidableEq

/-- Where a call has got to. -/
inductive Call where
  | join (room : RoomId) (devices : DevicesId)
  /-- It has changed the room, and taken the loop of the call before. -/
  | joinTook (change : ℕ) (devices : DevicesId) (previous : Option ℕ)
  /-- It has spawned its loops, which nobody holds yet. -/
  | joinSpawned (change : ℕ)
  | leave
  /-- It has changed the room, and holds what it took. -/
  | leaving (forward : Option ConnId) (pump : Option ℕ) (devices : Option DevicesId)
  | awaiting (pump : ℕ) (devices : Option DevicesId)
  | offer
  | offered (conn : Option ConnId)
  | replacing (conn : ConnId)
  | closing (conn : ConnId) (reopens : Bool)
  | opening
  /-- The connection is made, and nobody holds it yet. -/
  | made (conn : ConnId)
  | answering
  | restart
  | setControls (controls : VoiceControls)
deriving DecidableEq

/-- Everything voice is doing: what `inner` holds, the sending and the restart loops, which
connections were made and closed, and the calls under way. Changes of the room are counted, and a
loop goes by the change of the join that spawned it. -/
structure Engine where
  room : Option RoomId
  devices : Option DevicesId
  pump : Option ℕ
  restarts : Option ℕ
  forward : Option ConnId
  controls : VoiceControls
  changes : ℕ
  made : ℕ
  closed : List ConnId
  pumps : FMap ℕ Pump
  steering : List ℕ
  calls : FMap ℕ Call
  called : ℕ

inductive Event where
  | calls (call : Call)
  /-- A call goes on, as far as the next lock or wait: what it waited for went well, or did not. -/
  | goesOn (id : ℕ) (good : Bool)
  | pumpEnds (change : ℕ)
  | steerEnds (change : ℕ)
deriving DecidableEq

/-- It is the start of a call. -/
def Call.starts : Call → Bool
  | .join _ _ | .leave | .offer | .restart | .setControls _ => true
  | _ => false

namespace Engine

def new : Engine := ⟨none, none, none, none, none, ⟨false, false⟩, 0, 0, [], ∅, [], ∅, 0⟩

def goes (engine : Engine) (id : ℕ) (call : Call) : Engine :=
  { engine with calls := engine.calls.insert id call }

def returns (engine : Engine) (id : ℕ) : Engine := { engine with calls := engine.calls.erase id }

/-- `JoinHandle::abort`: the loop ends where it next waits. -/
def abort (engine : Engine) (pump : Option ℕ) : Engine :=
  match pump with
  | none => engine
  | some change =>
    { engine with pumps := engine.pumps.modify change fun pump => { pump with aborted := true } }

def close (engine : Engine) (conn : ConnId) : Engine :=
  { engine with closed := conn :: engine.closed }

def goOn (engine : Engine) (id : ℕ) (good : Bool) : Call → Option Engine
  | .join room devices =>
    let change := engine.changes + 1
    some ({ engine with
      room := some room, devices := some devices, pump := none, changes := change }.goes id
      (.joinTook change devices engine.pump))
  | .joinTook change devices previous =>
    let aborted := engine.abort previous
    some ({ aborted with
      pumps := aborted.pumps.insert change ⟨devices, false⟩
      steering := change :: aborted.steering }.goes id (.joinSpawned change))
  | .joinSpawned change =>
    some ({ engine with pump := some change, restarts := some change }.returns id)
  | .leave =>
    some ({ engine with
      room := none, restarts := none, devices := none, pump := none, forward := none,
                        changes := engine.changes + 1 }.goes id
                          (.leaving engine.forward engine.pump engine.devices))
  | .leaving (some conn) pump devices =>
    some ((engine.close conn).goes id (.leaving none pump devices))
  | .leaving none (some pump) devices =>
    some ((engine.abort (some pump)).goes id (.awaiting pump devices))
  | .leaving none none _ => some (engine.returns id)
  | .awaiting pump _ => if engine.pumps[pump]? = none then some (engine.returns id) else none
  | .offer => some (if engine.room = none then
      engine.returns id else engine.goes id (.offered engine.forward))
  | .offered none => some (engine.goes id .opening)
  -- Whether the offer comes from the far end the connection has.
  | .offered (some conn) => some (engine.goes id (if good then .answering else .replacing conn))
  | .replacing conn =>
    some (if engine.forward = some conn then
      { engine with forward := none }.goes id (.closing conn true)
      else engine.goes id .opening)
  | .closing conn reopens =>
    some (if reopens then (engine.close conn).goes id .opening else (engine.close conn).returns id)
  | .opening =>
    some (if good then
      { engine with made := engine.made + 1 }.goes id (.made engine.made) else engine.returns id)
  | .made conn => some (if good then
      { engine with forward := some conn }.goes id .answering else engine.returns id)
  | .answering => some (engine.returns id)
  | .restart =>
    some (match engine.room, engine.forward with
    | some _, some conn => { engine with forward := none }.goes id (.closing conn false)
    | _, _ => engine.returns id)
  | .setControls controls => some ({ engine with controls := controls.normalized }.returns id)

def step (engine : Engine) : Event → Option Engine
  | .calls call =>
    if call.starts then some { engine.goes engine.called call with called := engine.called + 1 }
      else none
  | .goesOn id good => (engine.calls[id]?).bind fun call => engine.goOn id good call
  -- A sending loop ends where it was aborted, or by itself: its source ended, or it has no encoder.
  | .pumpEnds change =>
    if (engine.pumps[change]?).isSome then some { engine with pumps := engine.pumps.erase change }
      else none
  -- The restart loop ends once nobody holds its sender.
  | .steerEnds change =>
    if engine.restarts = some change ∨ Call.joinSpawned change ∈ vals engine.calls then none
    else some { engine with steering := engine.steering.filter (· ≠ change) }

end Engine

def machine : Machine Engine Event := ⟨.new, Engine.step⟩

/-- Nothing is in flight. -/
structure Quiet (engine : Engine) : Prop where
  calls : vals engine.calls = []
  pumps : ∀ pump ∈ vals engine.pumps, pump.aborted = false
  steering : ∀ change ∈ engine.steering, engine.restarts = some change

/-- Whoever changed the room last left voice, and nothing is left; or joined, and one loop sends
from the devices held; and every connection but the one held in a call is closed. -/
structure Settled (engine : Engine) : Prop where
  left : engine.room = none → engine.devices = none ∧ engine.pump = none ∧ engine.restarts = none ∧
    engine.forward = none ∧ vals engine.pumps = [] ∧ engine.steering = []
  joined : engine.room ≠ none → ∃ change devices, engine.devices = some devices ∧
    engine.pump = some change ∧ engine.pumps = (∅ : FMap ℕ Pump).insert change ⟨devices, false⟩
  closed : ∀ conn, conn < engine.made →
    conn ∈ engine.closed ∨ (engine.room ≠ none ∧ engine.forward = some conn)

/-- Nothing falls in a gap: no other join and no leave has changed the room when a join stores its
loops, a connection that was made is held, in a call that holds no other, and the last join's loop
doesn't end by itself. -/
def Allowed (engine : Engine) : Event → Prop
  | .goesOn id good =>
    match engine.calls[id]? with
    | some (.joinSpawned change) => change = engine.changes
    | some (.made _) => good = true ∧ engine.room ≠ none ∧ engine.forward = none
    | _ => True
  | .pumpEnds change => change ≠ engine.changes ∨ (engine.pumps[change]?).all Pump.aborted = true
  | _ => True

end Linger.VoiceEngine
