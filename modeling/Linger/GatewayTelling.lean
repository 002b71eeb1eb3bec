import Linger.GatewayCalls

/-! The same calls cut at every point where another task gets in, with the two
rate-limited tellers that follow them. A person's entry in `session_presence`
is held from `connection_opened`'s merge to its telling, and through the whole
of `session_gone`. -/
namespace Linger
open FiniteMap StepMachine

/-- Where one task stands. `presenceNow` and `focusSound` are reached both
straight from the limiter and from a held turn that has been let go. -/
inductive Task
  | done
  | told (userId : UserId) (merged : Merged)
  | presenceContains (userId : UserId)
  | presenceCheck (userId : UserId)
  | presenceInsert (userId : UserId)
  | presenceTurn (userId : UserId)
  | presenceRelease (userId : UserId)
  | presenceNow (userId : UserId)
  | focusContains (userId : UserId)
  | focusCheck (userId : UserId)
  | focusInsert (userId : UserId)
  | focusTurn (userId : UserId)
  | focusRelease (userId : UserId)
  | focusSound (userId : UserId)
  | focusNow (userId : UserId) (entranceSound : Option String)
  | focusForget (userId : UserId)
  | opening (userId : UserId)
  | goneRoom (userId : UserId)
  | goneTold (userId : UserId) (moved : Bool)
  | goneTell (userId : UserId)
  | goneTellForget (userId : UserId)
  | goneForget (userId : UserId)
  | gonePresence (userId : UserId)
  | goneOffline (userId : UserId)
  | goneRecords (userId : UserId)
  | grace (userId : UserId) (sessionId : SessionId) (number : ℕ)
  deriving DecidableEq

/-- Whose entry in `session_presence` a task holds. -/
def Task.holds : Task → Option UserId
  | .opening u | .goneRoom u | .goneTold u _ | .goneTell u | .goneTellForget u | .goneForget u
  | .gonePresence u | .goneOffline u | .goneRecords u => some u
  | _ => none

/-- What the limiter answers and which sound the database holds, as the task finds them. -/
structure Outcome where
  limiter : Bool
  entranceSound : Option String

namespace Gateway

/-- A closing call's task goes on to tell its answer, or to take the person offline. -/
def afterClosing (u : UserId) (left : Gateway × Option Merged) : Gateway × Task :=
  match left.2 with
  | some merged => (left.1, .told u merged)
  | none => (left.1, .goneRoom u)

/-- A presence call up to where it lets its person's entry go, or first tells. -/
def begin (g : Gateway) : PresenceCall → Gateway × Task
  | .connectionOpened u s =>
    let (g, merged) := g.connectionOpening u s
    (g, if merged ≠ .same then .opening u else .done)
  | .connectionClosed u s => afterClosing u (g.connectionClosing u s)
  | .connectionDropped u s =>
    match g.connectionDropped u s with
    | (g, some number) => (g, .grace u s number)
    | (g, none) => (g, .done)
  | .graceOver u s number => afterClosing u (g.graceEnding u s number)
  | .updatePresence u s state awayMessage =>
    (g.updatePresence u s state awayMessage).map id (.told u)
  | .moveTo u s roomId => (g.moveTo u s roomId).map id (.told u)
  | .backEverywhere u => (g.backEverywhere u).map id (.told u)

def holdPresence (g : Gateway) (u : UserId) : Gateway :=
  { g with presenceHeld := insert u g.presenceHeld }
def letPresence (g : Gateway) (u : UserId) : Gateway :=
  { g with presenceHeld := g.presenceHeld.erase u }
def holdFocus (g : Gateway) (u : UserId) : Gateway :=
  { g with focusHeld := insert u g.focusHeld }
def letFocus (g : Gateway) (u : UserId) : Gateway :=
  { g with focusHeld := g.focusHeld.erase u }

/-- One step of a task, each section that holds a map's guard being one. -/
def advance (g : Gateway) (o : Outcome) : Task → Gateway × Task
  | .done => (g, .done)
  | .grace u s number => g.begin (.graceOver u s number)
  | .told u merged =>
    match merged with
    | .same => (g, .done)
    | .changed => (g, .presenceContains u)
    | .moved => (g, .focusContains u)
  -- `tell_presence`: a turn already coming tells this change too
  | .presenceContains u => (g, if u ∈ g.presenceHeld then .done else .presenceCheck u)
  | .presenceCheck u => (g, if o.limiter then .presenceNow u else .presenceInsert u)
  | .presenceInsert u =>
    if u ∈ g.presenceHeld then (g, .done) else (g.holdPresence u, .presenceTurn u)
  | .presenceTurn u => (g, if o.limiter then .presenceRelease u else .presenceTurn u)
  | .presenceRelease u => (g.letPresence u, .presenceNow u)
  | .presenceNow u => (g.tellPresence u, .done)
  -- `tell_focus`, and `tell_focus_now` from the database read on
  | .focusContains u => (g, if u ∈ g.focusHeld then .done else .focusCheck u)
  | .focusCheck u => (g, if o.limiter then .focusSound u else .focusInsert u)
  | .focusInsert u => if u ∈ g.focusHeld then (g, .done) else (g.holdFocus u, .focusTurn u)
  | .focusTurn u => (g, if o.limiter then .focusRelease u else .focusTurn u)
  | .focusRelease u => (g.letFocus u, .focusSound u)
  | .focusSound u => (g, .focusNow u o.entranceSound)
  | .focusNow u sound =>
    match g.tellFocus u sound with
    | (g, offline) => (g, if offline then .focusForget u else .done)
  | .focusForget u => (g.forgetFocus u, .done)
  | .opening u => (g.tellPresence u, .done)
  -- `session_gone`, once nobody of the person's sessions is left
  | .goneRoom u =>
    match g.goneFromRoom u with
    | (g, moved) => (g, .goneTold u moved)
  | .goneTold u moved => (g, if moved || g.toldSomewhere u then .goneTell u else .goneForget u)
  | .goneTell u =>
    match g.tellFocus u none with
    | (g, offline) => (g, if offline then .goneTellForget u else .goneForget u)
  | .goneTellForget u => (g.forgetFocus u, .goneForget u)
  | .goneForget u => (g.forgetFocus u, .gonePresence u)
  | .gonePresence u => (g.forgetPresence u, .goneOffline u)
  | .goneOffline u => (g.tellOffline u, .goneRecords u)
  | .goneRecords u => (g.forgetRecords u, .done)

end Gateway

/-- The gateway with its tasks, and which task holds whose `session_presence` entry. -/
structure Telling where
  gateway : Gateway
  tasks : ℕ → Task
  heldBy : FMap UserId ℕ

namespace Telling

inductive Act
  | call (i : ℕ) (c : Gateway.PresenceCall)
  | step (i : ℕ) (o : Outcome)
  | dms (roomId : RoomId) (members : Option (List UserId))

/-- Who has to be let go of before a task can take its next step. -/
def waitsFor : Task → Option UserId
  | .grace u _ _ => some u
  | _ => none

/-- Task `i`, which stood at `old`, is at `next` now and holds what that holds. -/
def goOn (t : Telling) (i : ℕ) (old : Task) (next : Gateway × Task) : Telling :=
  { gateway := next.1
    tasks := Function.update t.tasks i next.2
    heldBy :=
      match next.2.holds, old.holds with
      | some u, _ => t.heldBy.insert u i
      | none, some u => t.heldBy.erase u
      | none, none => t.heldBy }

def endsGrace : Gateway.PresenceCall → Bool
  | .graceOver _ _ _ => true
  | _ => false

/-- A grace period only ends where a drop began one, so no task starts as its
end. The list of DMs changes under the tasks, for rooms that are DMs. -/
def step (dmRoom : RoomId → Bool) (t : Telling) : Act → Option Telling
  | .call i c =>
    if t.tasks i ≠ .done ∨ endsGrace c ∨ (t.heldBy[c.userId]?).isSome then none
    else some (t.goOn i .done (t.gateway.begin c))
  | .step i o =>
    let old := t.tasks i
    if old = .done ∨ (waitsFor old).any fun u => (t.heldBy[u]?).isSome then none
    else some (t.goOn i old (t.gateway.advance o old))
  | .dms roomId members =>
    if dmRoom roomId then
      some { t with gateway.dmMembers := t.gateway.dmMembers.alter roomId fun _ => members }
    else none

def machine (dmRoom : RoomId → Bool) : Machine Telling Act :=
  ⟨⟨Gateway.new, fun _ => .done, ∅⟩, step dmRoom⟩

end Telling
end Linger
