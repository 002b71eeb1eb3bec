import Mathlib.Algebra.Group.Nat.Defs
import Linger.StepMachine

/-! The app's gateway task: one socket to one server after another, the session it resumes into, and
the commands the app gives it. -/
namespace Linger.CoreGateway
open StepMachine

def U64_MAX : ℕ := 2 ^ 64 - 1
def U32_MAX : ℕ := 2 ^ 32 - 1

/-- Unacknowledged heartbeats before the socket counts as dead. -/
def MISSED_ACKS : ℕ := 2

/-- How many commands may wait to be served. -/
def QUEUE : ℕ := 32

section Frames

inductive ServerEvent
  | hello (heartbeatIntervalMs : ℕ)
  | heartbeatAck
  | invalidSession (unauthenticated : Bool)
  | resumed (replayed : ℕ)
  | ready (sessionId : ℕ)
  | dispatch (op : ℕ)
  deriving DecidableEq

/-- One JSON value off the socket: its number, if it has one, and its event, if it is one of
ours. -/
structure Incoming where
  s : Option ℕ
  event : Option ServerEvent
  whole : ∀ n ∈ s, n ≤ U64_MAX

/-- A server session that may be resumed into: the highest number handed over, and the last one of
the replay under way. -/
structure Session where
  id : ℕ
  lastSeq : Option ℕ
  replayThrough : Option ℕ
  deriving DecidableEq

structure Beat where
  outstanding : ℕ
  sent : Bool
  deriving DecidableEq

def Beat.new : Beat := ⟨0, false⟩

inductive Outcome
  | dropped
  | restart (immediate : Bool)
  | reauth
  | shutdown
  deriving DecidableEq

inductive Step
  | idle
  | ready
  | out (outcome : Outcome)
  deriving DecidableEq

/-- What an incoming frame tells the app: a session's start, a number counted, with the frame
itself, marked as replayed or not, where it is one of ours, or that the session carries on. -/
inductive Told
  | nothing
  | ready (sessionId s : ℕ)
  | counted (s : ℕ) (frame : Option Bool)
  | resumed
  deriving DecidableEq

structure Applied where
  session : Option Session
  beat : Beat
  step : Step
  told : Told

/-- The next number of a session: counted, and handed over with its frame. -/
def count (open' : Session) (beat : Beat) (f : Incoming) (seq : ℕ) : Applied :=
  ⟨some { open' with lastSeq := some seq }, beat, .idle,
    .counted seq (f.event.map fun _ => open'.replayThrough.any fun through =>
      decide (seq ≤ through))⟩

/-- Fold one incoming frame into the session. -/
def apply (session : Option Session) (beat : Beat) (resuming : Bool) (f : Incoming) : Applied :=
  match f.event with
  | some .heartbeatAck => ⟨session, ⟨0, false⟩, .idle, .nothing⟩
  | some (.invalidSession unauthenticated) =>
    ⟨session, beat, .out (if resuming then .restart true else if unauthenticated then
      .reauth else .restart false), .nothing⟩
  | some (.resumed replayed) =>
    ⟨session.map fun open' =>
      { open' with replayThrough := open'.lastSeq.map fun last => min (last + replayed) U64_MAX },
      beat, .ready, if resuming then .resumed else .nothing⟩
  | some (.hello _) => ⟨session, beat, .idle, .nothing⟩
  | event =>
    match f.s with
    | none => ⟨session, beat, .idle, .nothing⟩
    | some seq =>
      match event, session with
      | some (.ready sessionId), _ =>
        ⟨some ⟨sessionId, some seq, none⟩, beat, .ready, .ready sessionId seq⟩
      -- sequenced traffic before `ready` has nowhere to be counted
      | _, none => ⟨none, beat, .idle, .nothing⟩
      | _, some open' =>
        match open'.lastSeq with
        | some previous =>
          if seq ≤ previous then ⟨session, beat, .idle, .nothing⟩
          else if previous + 1 < seq then ⟨session, beat, .out (.restart true), .nothing⟩
          else count open' beat f seq
        | none => count open' beat f seq

end Frames

section Task

inductive ClientFrame
  | voiceJoin
  | other
  deriving DecidableEq

inductive Cmd
  | token
  | send (frame : ClientFrame)
  | leaveVoice
  | retry
  | shutdown
  deriving DecidableEq

inductive Opener
  | identify
  | resume (sessionId s : ℕ)
  deriving DecidableEq

/-- What goes over a socket: what commands sent, by when they were given, and what the task itself
does. -/
inductive Written
  | opener (opener : Opener)
  | heartbeat (s : Option ℕ)
  | frame (k : ℕ) (frame : ClientFrame)
  | voiceLeave (ks : List ℕ)
  deriving DecidableEq

/-- What has happened, for the record: what was written, or tried, what the app was told, and
whether that was of a frame the server was still to replay. -/
inductive Entry
  | wrote (written : Written) (ok : Bool)
  | told (told : Told) (replay : Bool)
  deriving DecidableEq

inductive Phase
  | checking
  | tokenWait
  | dialing
  | greeting
  | live (resuming ready : Bool) (beat : Beat)
  | pausing
  | ended
  deriving DecidableEq

/-- The task, its commands that wait to be served, and the record. `leaveVoice` is the commands that
asked for the `voice.leave` it keeps, of which the task itself knows only whether there are any;
`due` is how many frames the server is still to replay on this socket. -/
structure State where
  phase : Phase
  token : Bool
  session : Option Session
  attempt : ℕ
  leaveVoice : List ℕ
  queue : List (ℕ × Cmd)
  given : ℕ
  due : ℕ
  log : List Entry

inductive Event
  | give (cmd : Cmd)
  | check (usable : Bool)
  | elapsed
  | dialed (ok : Bool)
  | hello (event : Option ServerEvent) (ok : Bool)
  | incoming (f : Incoming) (ok : Bool)
  | lost
  | beat (ok : Bool)
  | serve (ok : Bool)

/-- The frames that are counted: any with a number but the connection's own and `ready`. -/
def Incoming.sequenced (f : Incoming) : Bool :=
  f.s.isSome && match f.event with
    | none | some (.dispatch _) => true
    | _ => false

namespace State
variable (st : State)

/-- Wait out the reconnect delay; the first try after a healthy connection is immediate. -/
def pause : State :=
  if st.attempt = 0 then { st with attempt := 1, phase := .checking }
  else { st with attempt := min (st.attempt + 1) U32_MAX, phase := .pausing }

def ends : Outcome → State
  | .shutdown => { st with phase := .ended }
  | .dropped => st.pause
  | .restart true => { st with session := none, phase := .checking }
  | .restart false => { st with session := none }.pause
  | .reauth => { st with token := false }.pause

def write (written : Written) (ok : Bool) : State :=
  { st with log := st.log ++ [.wrote written ok] }

def opener : Opener :=
  match st.session with
  | some session => .resume session.id (session.lastSeq.getD 0)
  | none => .identify

/-- The kept leave goes out, or is kept on as the socket is lost. -/
def sendLeave (ok : Bool) : State :=
  if ok then { st.write (.voiceLeave st.leaveVoice) true with leaveVoice := [] }
  else (st.write (.voiceLeave st.leaveVoice) false).ends .dropped

/-- What is still to be replayed after a frame. -/
def dueAfter (f : Incoming) : ℕ :=
  match f.event with
  | some (.resumed replayed) => replayed
  | some (.ready _) => if f.s = none then st.due else 0
  | _ => if f.sequenced then st.due - 1 else st.due

def hear (resuming ready : Bool) (beat : Beat) (f : Incoming) (ok : Bool) : State :=
  let applied := apply st.session beat resuming f
  let heard := { st with session := applied.session, due := st.dueAfter f, log := st.log ++
    [Entry.told applied.told (decide (0 < st.due))] }
  match applied.step with
  | .idle => { heard with phase := .live resuming ready applied.beat }
  | .ready =>
    let open' := { heard with attempt := 0, phase := .live resuming true applied.beat }
    if st.leaveVoice = [] then open' else open'.sendLeave ok
  | .out outcome => heard.ends outcome

/-- A command while a socket is open. -/
def serveOpen (ready : Bool) (k : ℕ) (ok : Bool) : Cmd → State
  | .shutdown => st.ends .shutdown
  | .token => { st with token := true }
  | .send frame =>
    if ok then st.write (.frame k frame) true else (st.write (.frame k frame) false).ends .dropped
  | .leaveVoice =>
    let kept := { st with leaveVoice := st.leaveVoice ++ [k] }
    if ready then kept.sendLeave ok else kept
  | .retry => st

/-- A command between sockets. -/
def serveWaiting (stopOnToken : Bool) (k : ℕ) : Cmd → State
  | .shutdown => st.ends .shutdown
  | .token =>
    if stopOnToken then { st with token := true, phase := .checking } else { st with token := true }
  -- nothing to send it over
  | .send _ => st
  | .leaveVoice => { st with leaveVoice := st.leaveVoice ++ [k] }
  | .retry => if stopOnToken then st else { st with attempt := 0, phase := .checking }

end State

def advance (st : State) : Event → Option State
  | .give cmd =>
    if st.phase ≠ .ended ∧ st.queue.length < QUEUE then
      some { st with queue := st.queue ++ [(st.given, cmd)], given := st.given + 1 }
    else none
  | .check usable =>
    if st.phase = .checking then
      if st.token && usable then some { st with phase := .dialing }
      else some { st with token := false, phase := .tokenWait }
    else none
  | .elapsed =>
    match st.phase with
    | .tokenWait | .pausing => some { st with phase := .checking }
    | _ => none
  | .dialed ok =>
    if st.phase = .dialing then
      if ok then some { st with phase := .greeting } else some st.pause
    else none
  | .hello event ok =>
    if st.phase = .greeting then
      match event with
      | some (.hello _) =>
        let opened := st.write (.opener st.opener) ok
        if ok then some { opened with phase := .live st.session.isSome false .new, due := 0 }
        else some (opened.ends .dropped)
      | _ => some (st.ends .dropped)
    else none
  | .incoming f ok =>
    match st.phase with
    | .live resuming ready beat => some (st.hear resuming ready beat f ok)
    | _ => none
  | .lost =>
    match st.phase with
    | .live .. => some (st.ends .dropped)
    | _ => none
  | .beat ok =>
    match st.phase with
    | .live resuming ready beat =>
      if MISSED_ACKS ≤ beat.outstanding then some (st.ends .dropped)
      else
        let beaten := st.write (.heartbeat (st.session.bind Session.lastSeq)) ok
        if ok then some { beaten with phase := .live resuming ready ⟨beat.outstanding + 1, true⟩ }
        else some (beaten.ends .dropped)
    | _ => none
  | .serve ok =>
    match st.queue with
    | [] => none
    | (k, cmd) :: queue =>
      match st.phase with
      | .live _ ready _ => some ({ st with queue := queue }.serveOpen ready k ok cmd)
      | .tokenWait => some ({ st with queue := queue }.serveWaiting true k cmd)
      | .pausing => some ({ st with queue := queue }.serveWaiting false k cmd)
      | _ => none

/-- A task that is about to look whether its token will do. -/
def machine : Machine State Event where
  start :=
    { phase := .checking, token := true, session := none, attempt := 0, leaveVoice := [],
      queue := [], given := 0, due := 0, log := [] }
  step := advance

end Task

section Quiet
variable {st st' st'' : State} {event : Event}

/-- Whether the server has taken a socket as the session. -/
def Phase.isReady : Phase → Bool
  | .live _ ready _ => ready
  | _ => false

def Phase.isLive : Phase → Bool
  | .live .. => true
  | _ => false

/-- What a step does to the record, the session and the kept leave when it neither hears a frame nor
serves a command. -/
structure Quiet (st st' : State) : Prop where
  session : st'.session = st.session ∨ st'.session = none
  leaveVoice : st'.leaveVoice = st.leaveVoice
  given : st.given ≤ st'.given
  queue : st'.queue = st.queue ∨ ∃ cmd, st'.queue = st.queue ++ [(st.given, cmd)] ∧
    st'.given = st.given + 1
  log : st'.log = st.log ∨ ∃ written ok, st'.log = st.log ++ [.wrote written ok] ∧
    (written = .opener st.opener ∨ ∃ s, written = .heartbeat s)
  ready : st'.phase.isReady = true → st.phase.isReady = true ∧ st'.due = st.due ∧
    st'.session = st.session
  live : st'.phase.isLive = true →
    st.phase.isLive = true ∨ ∃ ok, st'.log = st.log ++ [.wrote (.opener st.opener) ok]

/-- A step that changes neither queue nor record, and leaves no socket open. -/
theorem Quiet.left (hsession : st'.session = st.session ∨ st'.session = none)
    (hleave : st'.leaveVoice = st.leaveVoice)
    (hgiven : st'.given = st.given) (hqueue : st'.queue = st.queue) (hlog : st'.log = st.log)
    (hlive : st'.phase.isLive = false) : Quiet st st' := by
  have hready : st'.phase.isReady = false := by
    cases hphase : st'.phase with
    | live =>
      rw [hphase] at hlive
      cases hlive
    | _ => rfl
  refine ⟨hsession, hleave, Nat.le_of_eq hgiven.symm, .inl hqueue, .inl hlog, fun h => ?_,
    fun h => ?_⟩
  · rw [hready] at h
    cases h
  · rw [hlive] at h
    cases h

theorem quiet_pause (st : State) : Quiet st st.pause := by
  rw [State.pause]
  split
  · exact .left (.inl rfl) rfl rfl rfl rfl rfl
  · exact .left (.inl rfl) rfl rfl rfl rfl rfl

theorem quiet_ends (st : State) (outcome : Outcome) : Quiet st (st.ends outcome) := by
  have hpause {st' : State} (hsession : st'.session = st.session ∨ st'.session = none)
      (hleave : st'.leaveVoice = st.leaveVoice) (hgiven : st'.given = st.given)
        (hqueue : st'.queue = st.queue)
      (hlog : st'.log = st.log) : Quiet st st'.pause := by
    rw [State.pause]
    split
    · exact .left hsession hleave hgiven hqueue hlog rfl
    · exact .left hsession hleave hgiven hqueue hlog rfl
  cases outcome with
  | shutdown => exact .left (.inl rfl) rfl rfl rfl rfl rfl
  | dropped => exact quiet_pause st
  | restart immediate =>
    cases immediate with
    | true => exact .left (.inr rfl) rfl rfl rfl rfl rfl
    | false => exact hpause (.inr rfl) rfl rfl rfl rfl
  | reauth => exact hpause (.inl rfl) rfl rfl rfl rfl

theorem pause_live (st : State) : st.pause.phase.isLive = false := by
  rw [State.pause]
  split <;> rfl

theorem ends_live (st : State) (outcome : Outcome) : (st.ends outcome).phase.isLive = false := by
  cases outcome with
  | shutdown => rfl
  | dropped => exact pause_live st
  | restart immediate =>
    cases immediate with
    | true => rfl
    | false => exact pause_live _
  | reauth => exact pause_live _

theorem ends_ready (st : State) (outcome : Outcome) : (st.ends outcome).phase.isReady = false := by
  have hlive := ends_live st outcome
  cases hphase : (st.ends outcome).phase with
  | live =>
    rw [hphase] at hlive
    cases hlive
  | _ => rfl

/-- A socket that ends after the task has written on it. -/
theorem quiet_written {written : Written} (ok : Bool) (outcome : Outcome)
    (hown : written = .opener st.opener ∨ ∃ s, written = .heartbeat s) :
    Quiet st ((st.write written ok).ends outcome) := by
  have hends := quiet_ends (st.write written ok) outcome
  have hlog : ((st.write written ok).ends outcome).log = st.log ++ [.wrote written ok] := by
    cases outcome with
    | restart immediate =>
      cases immediate
      · dsimp only [State.ends, State.pause]
        split <;> rfl
      · rfl
    | shutdown => rfl
    | _ =>
      dsimp only [State.ends, State.pause]
      split <;> rfl
  refine ⟨hends.session, hends.leaveVoice, hends.given, hends.queue, .inr ⟨written, ok, hlog, hown⟩,
    fun h => ?_, fun h => ?_⟩
  · have hready := (hends.ready h)
    exact ⟨hready.1, hready.2⟩
  · rw [ends_live] at h
    cases h

theorem advance_quiet (h : advance st event = some st') (hincoming : ∀ f ok, event ≠ .incoming f ok)
    (hserve : ∀ ok, event ≠ .serve ok) : Quiet st st' := by
  cases event with
  | give cmd =>
    obtain ⟨-, heq⟩ := Option.ite_none_right_eq_some.mp h
    cases heq
    exact ⟨.inl rfl, rfl, Nat.le_succ _, .inr ⟨cmd, rfl, rfl⟩, .inl rfl, fun h => ⟨h, rfl, rfl⟩,
      .inl⟩
  -- Before a socket is open nothing goes over it.
  | check usable =>
    obtain ⟨-, heq⟩ := Option.ite_none_right_eq_some.mp h
    split at heq
    · cases heq
      exact .left (.inl rfl) rfl rfl rfl rfl rfl
    · cases heq
      exact .left (.inl rfl) rfl rfl rfl rfl rfl
  | elapsed =>
    dsimp only [advance] at h
    split at h
    · cases h
      exact .left (.inl rfl) rfl rfl rfl rfl rfl
    · cases h
      exact .left (.inl rfl) rfl rfl rfl rfl rfl
    · cases h
  | dialed ok =>
    obtain ⟨-, heq⟩ := Option.ite_none_right_eq_some.mp h
    split at heq
    · cases heq
      exact .left (.inl rfl) rfl rfl rfl rfl rfl
    · cases heq
      exact quiet_pause st
  | hello event ok =>
    obtain ⟨-, heq⟩ := Option.ite_none_right_eq_some.mp h
    split at heq
    · split at heq
      · next hok =>
        cases heq
        exact ⟨.inl rfl, rfl, Nat.le_refl _, .inl rfl, .inr ⟨_, ok, rfl, .inl rfl⟩, nofun,
          fun _ => .inr ⟨ok, rfl⟩⟩
      · cases heq
        exact quiet_written ok .dropped (.inl rfl)
    · cases heq
      exact quiet_ends st .dropped
  | incoming f ok => exact absurd rfl (hincoming f ok)
  | lost =>
    dsimp only [advance] at h
    split at h
    · cases h
      exact quiet_ends st .dropped
    · cases h
  -- A beat that was not answered ends the socket; otherwise the next goes out.
  | beat ok =>
    dsimp only [advance] at h
    split at h
    · next resuming ready beat hphase =>
      split at h
      · cases h
        exact quiet_ends st .dropped
      · split at h
        · cases h
          refine ⟨.inl rfl, rfl, Nat.le_refl _, .inl rfl, .inr ⟨_, ok, rfl, .inr ⟨_, rfl⟩⟩,
            fun hready => ⟨?_, rfl, rfl⟩, fun _ => .inl ?_⟩
          · rw [hphase]
            exact hready
          · rw [hphase]
            rfl
        · cases h
          exact quiet_written ok .dropped (.inr ⟨_, rfl⟩)
    · cases h
  | serve ok => exact absurd rfl (hserve ok)

end Quiet
end Linger.CoreGateway
