import Mathlib.Algebra.Group.Nat.Defs

/-! When the connection to the forwarding server is started afresh: what each event leaves of the
rules of one call, and the plan they make. Times are in nanoseconds. -/
namespace Linger.VoiceRestarts

/-- `DISCONNECTED_FOR`: two seconds. -/
def disconnectedFor : ℕ := 2 * 10 ^ 9

/-- `RESTART_AFTER`: three seconds. -/
def restartAfter : ℕ := 3 * 10 ^ 9

inductive Event where
  | connected
  | disconnected
  | failed
  | answered
  | gatewayResumed
  | tick
deriving DecidableEq

structure Plan where
  restart : Bool
  wake : Option ℕ
deriving DecidableEq

structure Restarts where
  disconnected : Option ℕ
  asked : Option ℕ
  last : Option ℕ
  wanted : Bool
deriving DecidableEq

def Restarts.default : Restarts := ⟨none, none, none, false⟩

/-- What an event says, before the plan. -/
def Restarts.takeIn (rules : Restarts) (event : Event) (now : ℕ) : Restarts :=
  match event with
  | .connected => { rules with disconnected := none, wanted := false }
  | .disconnected => { rules with disconnected := some (rules.disconnected.getD now) }
  | .failed => { rules with disconnected := none, wanted := true }
  | .answered => { rules with asked := none, wanted := false, disconnected := none }
  | .gatewayResumed => { rules with wanted := true }
  | .tick => rules

/-- No offer came for the restart in flight. -/
def Restarts.lost (rules : Restarts) (now : ℕ) : Bool :=
  rules.asked.any fun asked => asked + restartAfter ≤ now

/-- The connection has been disconnected for long enough. -/
def Restarts.quiet (rules : Restarts) (now : ℕ) : Bool :=
  rules.disconnected.any fun since => since + disconnectedFor ≤ now

def Restarts.plan (rules : Restarts) (now : ℕ) : Restarts × Plan :=
  let rules := if rules.lost now then { rules with asked := none, wanted := true } else rules
  let rules := if rules.quiet now then { rules with wanted := true } else rules
  if rules.wanted ∧ rules.asked = none then
    let earliest := rules.last.elim now (· + restartAfter)
    if now < earliest then (rules, ⟨false, some earliest⟩)
    else
      ({ wanted := false, disconnected := none, asked := some now, last := some now },
        ⟨true, some (now + restartAfter)⟩)
  else
    (rules, ⟨false, ([rules.asked.map (· + restartAfter),
      rules.disconnected.map (· + disconnectedFor)].filterMap id).min?⟩)

/-- Take in what happened, and say what to do. -/
def Restarts.on (rules : Restarts) (event : Event) (now : ℕ) : Restarts × Plan :=
  (rules.takeIn event now).plan now

/-- What happens in a call, each thing with its moment. -/
abbrev Call := List (ℕ × Event)

def Restarts.after (rules : Restarts) (call : Call) : Restarts :=
  call.foldl (fun rules happened => (rules.on happened.2 happened.1).1) rules

/-- What the rules say to an event that comes after these. -/
def planAfter (call : Call) (now : ℕ) (event : Event) : Plan :=
  ((Restarts.default.after call).on event now).2

/-- Each thing comes no sooner than the one before it and no later than the wake that one's plan
asked for, where a tick comes if nothing else does. -/
def Delivered (call : Call) : Prop :=
  ∀ (before : Call) (now : ℕ) (event : Event) (next : ℕ) (following : Event) (after : Call),
    call = before ++ (now, event) :: (next, following) :: after →
    now ≤ next ∧ ∀ wake, (planAfter before now event).wake = some wake → next ≤ max wake now

/-- It says the connection is up, or a new one on its way. -/
def Event.up : Event → Bool
  | .connected | .answered => true
  | _ => false

/-- What happened since the connection was last up. -/
def sinceUp (call : Call) : Call := call.reverse.takeWhile fun happened => !happened.2.up

/-- By now it calls for a restart. -/
def calls (now : ℕ) (happened : ℕ × Event) : Bool :=
  match happened.2 with
  | .failed | .gatewayResumed => true
  | .disconnected => happened.1 + disconnectedFor ≤ now
  | _ => false

/-- Something since the connection was last up calls for a restart. -/
def Called (call : Call) (now : ℕ) : Prop := ∃ happened ∈ sinceUp call, calls now happened = true

/-- One that is asked for in this stretch, by then. -/
def RestartedBy (before stretch : Call) (from_ limit : ℕ) : Prop :=
  ∃ (pre : Call) (now : ℕ) (event : Event) (post : Call), stretch = pre ++ (now, event) :: post ∧
    (planAfter (before ++ pre) now event).restart = true ∧ from_ ≤ now ∧ now ≤ limit

/-- How long a restart may take after this, if the connection does not come up. -/
def patience : Event → Option ℕ
  | .disconnected => some (disconnectedFor + restartAfter)
  | .failed => some restartAfter
  | _ => none

/-- The rules of a call. -/
structure Rules (call : Call) : Prop where
  apart : ∀ (before between after : Call) (now next : ℕ) (event following : Event),
    call = before ++ (now, event) :: (between ++ (next, following) :: after) →
    (planAfter before now event).restart = true →
    (planAfter (before ++ (now, event) :: between) next following).restart = true →
    now + restartAfter ≤ next
  one_at_a_time : ∀ (before between after : Call) (now next : ℕ) (event following : Event),
    call = before ++ (now, event) :: (between ++ (next, following) :: after) →
    (planAfter before now event).restart = true → next < now + restartAfter →
    (∀ happened ∈ between, happened.2 ≠ .answered) →
    (planAfter (before ++ (now, event) :: between) next following).restart = false
  in_time : ∀ (before between after : Call) (now next limit : ℕ) (event following : Event),
    call = before ++ (now, event) :: (between ++ (next, following) :: after) →
      patience event = some limit →
    (∀ happened ∈ between, happened.2.up = false) → now + limit < next →
    RestartedBy before ((now, event) :: between) now (now + limit)
  called_for :
    ∀ (before after : Call) (now : ℕ) (event : Event), call = before ++ (now, event) :: after →
    (planAfter before now event).restart = true → Called (before ++ [(now, event)]) now
  wakes_later :
    ∀ (before after : Call) (now wake : ℕ) (event : Event), call = before ++ (now, event) :: after →
    (planAfter before now event).wake = some wake → now < wake

/-- It is not what the rules miss: a connection that has been quiet for long enough while a restart
is still in flight, and a restart that gets no offer when nothing has called for one since the
connection came up. -/
structure Clear (before : Call) (now : ℕ) (event : Event) : Prop where
  not_quiet : ∀ asked since, event ≠ .failed → event.up = false →
    (Restarts.default.after before).asked = some asked →
    (Restarts.default.after before).disconnected = some since →
    since + disconnectedFor ≤ now → asked + restartAfter ≤ now
  not_lost : ∀ asked, event ≠ .answered → (Restarts.default.after before).asked = some asked →
    asked + restartAfter ≤ now → Called (before ++ [(now, event)]) now

end Linger.VoiceRestarts
