import Linger.Wire

/-! Being in a room, and the two clocks that take an app out of it: what the app
decides to tell one server, and what it believes it has told it. -/
namespace Linger

/-- The frames about presence an app sends up. -/
inductive ClientFrame
  | presenceUpdate (state : PresenceState) (awayMessage : Option String)
  | roomFocus (roomId : Option RoomId)
  deriving DecidableEq, Repr

def leaveAfterMs : ℤ := 90000
def idleAfterMs : ℤ := 10 * 60000

/-- Everything `decide` needs. -/
structure PresenceClock where
  focused : Bool
  lastInputAt : ℤ
  blurredAt : ℤ
  roomId : Option RoomId
  sentRoomId : Option RoomId
  sentState : PresenceState
  wantAway : Option String
  sentAwayMessage : Option String

inductive PresenceAction
  | focus (roomId : Option RoomId)
  | state (state : PresenceState)
  | away (message : Option String)
  deriving DecidableEq, Repr

namespace PresenceClock

/-- Whether the 90-second clocks still say this person is here. -/
def stillHere (clock : PresenceClock) (now : ℤ) : Bool :=
  if now - clock.lastInputAt ≥ leaveAfterMs then false
  else if !clock.focused && now - clock.blurredAt ≥ leaveAfterMs then false
  else true

/-- The room to be in, if any. -/
def wantedRoom (clock : PresenceClock) (now : ℤ) : Option RoomId :=
  if clock.roomId = none ∨ !clock.stillHere now then none else clock.roomId

/-- The next thing to say, if the wire does not match already. Leave the room,
then go away: the leave sent after would wipe the away state. -/
def decide (clock : PresenceClock) (now : ℤ) : Option PresenceAction :=
  if clock.wantAway ≠ none then
    if clock.sentRoomId ≠ none then some (.focus none)
    else if clock.sentState ≠ .away ∨ clock.sentAwayMessage ≠ clock.wantAway then
      some (.away clock.wantAway)
    else none
  else if clock.sentState = .away then some (.state .around)
  else if clock.wantedRoom now ≠ clock.sentRoomId then some (.focus (clock.wantedRoom now))
  else if now - clock.lastInputAt ≥ idleAfterMs ∧ clock.sentState ≠ .idle then some (.state .idle)
  else if ¬now - clock.lastInputAt ≥ idleAfterMs ∧ clock.sentState = .idle then
    some (.state .around)
  else none

end PresenceClock

def frameFor : PresenceAction → ClientFrame
  | .focus roomId => .roomFocus roomId
  | .away message => .presenceUpdate .away message
  | .state state => .presenceUpdate state none

/-- What the app believes is on the wire. -/
structure Sent where
  roomId : Option RoomId
  state : PresenceState
  awayMessage : Option String
  deriving DecidableEq, Repr

def Sent.start : Sent := ⟨none, .around, none⟩

/-- The server clears the away message on any `room.focus`, so it is cleared here with it. -/
def applySent (sent : Sent) : PresenceAction → Sent
  | .focus roomId => ⟨roomId, if roomId = none then .around else .inRoom, none⟩
  | .away message => ⟨sent.roomId, .away, message⟩
  | .state state => ⟨sent.roomId, state, none⟩

/-- The window's own state, shared by every server, and the time. -/
structure Window where
  focused : Bool
  lastInputAt : ℤ
  blurredAt : ℤ
  now : ℤ

/-- What was said to one server, and what it is to hear next. While `tick` runs,
`running` is what it waits for the answer to, and that answer. -/
structure Watch where
  live : Bool
  openRoomId : Option RoomId
  sent : Sent
  wantAway : Option String
  running : Option (PresenceAction × Bool)
  pending : Bool

/-- What is trimmed off a string's ends: white space and line terminators. -/
def isTrimmed (c : Char) : Bool :=
  (0x9 ≤ c.toNat && c.toNat ≤ 0xD) || (0x2000 ≤ c.toNat && c.toNat ≤ 0x200A) ||
    [0x20, 0xA0, 0x1680, 0x2028, 0x2029, 0x202F, 0x205F, 0x3000, 0xFEFF].contains c.toNat

def trim (s : String) : String :=
  String.ofList (((s.toList.dropWhile isTrimmed).reverse.dropWhile isTrimmed).reverse)

namespace Watch

def fresh : Watch := ⟨false, none, Sent.start, none, none, false⟩

def clock (w : Watch) (window : Window) : PresenceClock :=
  ⟨window.focused, window.lastInputAt, window.blurredAt, w.openRoomId, w.sent.roomId,
    w.sent.state, w.wantAway, w.sent.awayMessage⟩

/-- One action a pass until there is nothing to say: hands a frame over and
waits, or stops. `queued` is whether there is a connection to take the frame. -/
def sayNext (w : Watch) (window : Window) (queued : Bool) : Watch × Option ClientFrame :=
  match (w.clock window).decide window.now with
  | none => ({ w with running := none, pending := w.pending && !w.live }, none)
  | some action =>
    ({ w with running := some (action, queued) }, if queued then some (frameFor action) else none)

/-- Work out what to send, and send it. One of these runs at a time. -/
def tick (w : Watch) (window : Window) (queued : Bool) : Watch × Option ClientFrame :=
  if w.running.isSome then ({ w with pending := true }, none)
  else if w.live then { w with pending := false }.sayNext window queued
  else ({ w with pending := false }, none)

/-- The send that `tick` waits for is answered. -/
def answered (w : Watch) (window : Window) (queued : Bool) : Option (Watch × Option ClientFrame) :=
  w.running.map fun waited =>
    if waited.2 then { w with sent := applySent w.sent waited.1 }.sayNext window queued
    else if w.pending && w.live then { w with pending := false }.sayNext window queued
    else ({ w with running := none }, none)

def setRoom (w : Watch) (roomId : Option RoomId) : Watch := { w with openRoomId := roomId }

def setAway (w : Watch) (message : Option String) : Watch :=
  { w with wantAway := message.map fun m => if trim m = "" then m else trim m }

/-- A server starts from around in no room on every `ready`, and so does this. -/
def setLive (w : Watch) (next : Bool) : Watch :=
  if next = w.live then w
  else if next then { w with live := true, sent := Sent.start }
  else { w with live := false }

end Watch

/-- What somebody is said to be doing: a room, a state and an away message,
being in a room told by the room alone. -/
structure Stance where
  roomId : Option RoomId
  state : PresenceState
  awayMessage : Option String
  deriving DecidableEq, Repr

def Stance.start : Stance := ⟨none, .around, none⟩

def Sent.stance (sent : Sent) : Stance :=
  ⟨sent.roomId, if sent.state = .inRoom then .around else sent.state, sent.awayMessage⟩

/-- What a frame means, whoever hears it. -/
def Stance.hear (s : Stance) : ClientFrame → Stance
  | .roomFocus roomId =>
    if s.roomId = roomId then s
    else { s with roomId := roomId, state := if s.state = .idle then .around else s.state }
  | .presenceUpdate state awayMessage =>
    { s with
      state := if state = .away ∨ state = .idle then state else .around
      awayMessage := awayMessage.filter fun _ => state = .away }

def Stance.hearAll (s : Stance) (frames : List ClientFrame) : Stance := frames.foldl Stance.hear s

/-- The beliefs an app can come to. -/
structure Sent.Sensible (sent : Sent) : Prop where
  inRoom : sent.state = .inRoom ↔ sent.roomId.isSome
  away : sent.state ≠ .away → sent.awayMessage = none
  online : sent.state ≠ .offline

theorem Sent.sensible_start : Sent.start.Sensible := ⟨by decide, fun _ => rfl, by decide⟩

/-- Ten minutes without input are ninety seconds without input. -/
theorem PresenceClock.wantedRoom_idle {clock : PresenceClock} {now : ℤ}
    (h : now - clock.lastInputAt ≥ idleAfterMs) : clock.wantedRoom now = none := by
  have hl : now - clock.lastInputAt ≥ leaveAfterMs := by
    unfold idleAfterMs at h
    unfold leaveAfterMs
    omega
  have hs : clock.stillHere now = false := by
    rw [stillHere, if_pos hl]
  rw [wantedRoom, if_pos (Or.inr (by rw [hs]; rfl))]

/-- All that `decide` can come up with: a move to another room, a state said
from no room or after it was idle or away, and going away from no room. -/
theorem PresenceClock.decide_cases {clock : PresenceClock} {now : ℤ} {action : PresenceAction}
    (h : clock.decide now = some action) :
    (∃ roomId, action = .focus roomId ∧ clock.sentRoomId ≠ roomId ∧
        (clock.sentState = .away → clock.sentRoomId ≠ none)) ∨
      (action = .state .idle ∧ clock.sentRoomId = none) ∨
      (action = .state .around ∧ (clock.sentState = .away ∨ clock.sentState = .idle)) ∨
      (action = .away clock.wantAway ∧ clock.sentRoomId = none) := by
  unfold decide at h
  by_cases hwant : clock.wantAway ≠ none
  · rw [if_pos hwant] at h
    by_cases hin : clock.sentRoomId ≠ none
    · rw [if_pos hin] at h
      cases h
      exact .inl ⟨none, rfl, hin, fun _ => hin⟩
    · rw [if_neg hin] at h
      split at h
      · cases h
        exact .inr (.inr (.inr ⟨rfl, not_not.mp hin⟩))
      · cases h
  · rw [if_neg hwant] at h
    by_cases haway : clock.sentState = .away
    · rw [if_pos haway] at h
      cases h
      exact .inr (.inr (.inl ⟨rfl, .inl haway⟩))
    · rw [if_neg haway] at h
      by_cases hroom : clock.wantedRoom now ≠ clock.sentRoomId
      · rw [if_pos hroom] at h
        cases h
        exact .inl ⟨_, rfl, hroom.symm, fun ha => absurd ha haway⟩
      · rw [if_neg hroom] at h
        split at h
        · next hidle =>
          cases h
          exact .inr (.inl ⟨rfl, by rw [← not_not.mp hroom, wantedRoom_idle hidle.1]⟩)
        · split at h
          · next hback =>
            cases h
            exact .inr (.inr (.inl ⟨rfl, .inr hback.2⟩))
          · cases h

theorem Sent.Sensible.noRoom {sent : Sent} (hs : sent.Sensible) (h : sent.state ≠ .inRoom) :
    sent.roomId = none := by
  simpa using hs.inRoom.not.mp h

/-- What the app does with its belief when it sends a frame is what the frame
means, from every belief it can decide to send it in. -/
theorem decide_hear {w : Watch} {window : Window} {action : PresenceAction}
    (hs : w.sent.Sensible) (h : (w.clock window).decide window.now = some action) :
    (applySent w.sent action).Sensible ∧
      (applySent w.sent action).stance = w.sent.stance.hear (frameFor action) := by
  rcases PresenceClock.decide_cases h with
    ⟨roomId, rfl, hne, hnot⟩ | ⟨rfl, hr⟩ | ⟨rfl, hst⟩ | ⟨rfl, hr⟩
  · have hne : w.sent.roomId ≠ roomId := hne
    have haway : w.sent.state ≠ .away := by
      intro ha
      exact hnot ha (hs.noRoom (by rw [ha]; decide))
    have hm := hs.away haway
    refine ⟨⟨?_, fun _ => rfl, ?_⟩, ?_⟩
    · cases roomId <;> simp [applySent]
    · cases roomId <;> simp [applySent]
    · have hsaid : (applySent w.sent (.focus roomId)).stance = ⟨roomId, .around, none⟩ := by
        cases roomId <;> rfl
      have hmoves : w.sent.stance.roomId ≠ roomId := hne
      rw [hsaid, frameFor, Stance.hear, if_neg hmoves]
      simp only [Sent.stance, hm, Stance.mk.injEq, true_and, and_true]
      cases hst : w.sent.state with
      | offline => exact absurd hst hs.online
      | away => exact absurd hst haway
      | inRoom | around | idle => rfl
  · have hr : w.sent.roomId = none := hr
    refine ⟨⟨by simp [applySent, hr], fun _ => rfl, by simp [applySent]⟩, ?_⟩
    simp [applySent, Sent.stance, frameFor, Stance.hear]
  · have hr : w.sent.roomId = none := hs.noRoom fun hi => by
      rcases hst with hst | hst <;> exact absurd (hi.symm.trans hst) (by decide)
    refine ⟨⟨by simp [applySent, hr], fun _ => rfl, by simp [applySent]⟩, ?_⟩
    simp [applySent, Sent.stance, frameFor, Stance.hear]
  · have hr : w.sent.roomId = none := hr
    refine ⟨⟨by simp [applySent, hr], fun hne => absurd rfl hne, by simp [applySent]⟩, ?_⟩
    have hkept (o : Option String) : o.filter (fun _ => true) = o := by cases o <;> rfl
    simp [applySent, Sent.stance, frameFor, Stance.hear, hkept]

namespace Watch

/-- What the app will believe once the answer it waits for is in. -/
def ahead (w : Watch) : Sent :=
  match w.running with
  | some (action, true) => applySent w.sent action
  | _ => w.sent

structure Sensible (w : Watch) : Prop where
  sent : w.sent.Sensible
  ahead : w.ahead.Sensible

/-- The app goes from one belief to another by what the frames it hands over mean. -/
structure Says (before : Stance) (next : Watch × Option ClientFrame) : Prop where
  sensible : next.1.Sensible
  heard : next.1.ahead.stance = before.hearAll next.2.toList

theorem ahead_of_refused {w : Watch} (h : ∀ waited ∈ w.running, waited.2 = false) :
    w.ahead = w.sent := by
  unfold ahead
  split
  · next action hr => exact absurd (h _ hr) (by simp)
  · rfl

theorem ahead_of_idle {w : Watch} (h : w.running = none) : w.ahead = w.sent := by
  rw [ahead, h]

theorem sayNext_moves (w : Watch) (window : Window) (queued : Bool) (h : w.sent.Sensible) :
    Says w.sent.stance (w.sayNext window queued) := by
  unfold sayNext
  cases hd : (w.clock window).decide window.now with
  | none => exact ⟨⟨h, h⟩, rfl⟩
  | some action =>
    obtain ⟨hs, hh⟩ := decide_hear h hd
    cases queued with
    | false => exact ⟨⟨h, h⟩, rfl⟩
    | true => exact ⟨⟨h, hs⟩, hh⟩

theorem tick_moves {w : Watch} (window : Window) (queued : Bool) (h : w.Sensible) :
    Says w.ahead.stance (w.tick window queued) := by
  unfold tick
  by_cases hr : w.running.isSome
  · rw [if_pos hr]
    exact ⟨⟨h.sent, h.ahead⟩, rfl⟩
  · rw [if_neg hr]
    have hidle : w.running = none := by simpa using hr
    rw [ahead_of_idle hidle]
    by_cases hl : w.live
    · rw [if_pos hl]
      exact sayNext_moves { w with pending := false } window queued h.sent
    · rw [if_neg hl]
      have ha : ({ w with pending := false } : Watch).ahead = w.sent := by rw [ahead, hidle]
      exact ⟨⟨h.sent, by rw [ha]; exact h.sent⟩, by rw [ha]; rfl⟩

theorem answered_moves {w : Watch} (window : Window) (queued : Bool) (h : w.Sensible)
    {next : Watch × Option ClientFrame} (hn : w.answered window queued = some next) :
    Says w.ahead.stance next := by
  unfold answered at hn
  obtain ⟨⟨action, ok⟩, hr, rfl⟩ := Option.map_eq_some_iff.mp hn
  cases ok with
  | true =>
    have ha : w.ahead = applySent w.sent action := by rw [ahead, hr]
    have hs := h.ahead
    rw [ha] at hs ⊢
    exact sayNext_moves { w with sent := applySent w.sent action } window queued hs
  | false =>
    have ha : w.ahead = w.sent := by rw [ahead, hr]
    rw [ha]
    show Says _ (if w.pending && w.live then _ else _)
    by_cases hp : (w.pending && w.live) = true
    · rw [if_pos hp]
      exact sayNext_moves { w with pending := false } window queued h.sent
    · rw [if_neg hp]
      exact ⟨⟨h.sent, h.sent⟩, rfl⟩

/-- A socket that says `ready` is one the app starts over on. -/
theorem setLive_again (w : Watch) :
    ((w.setLive false).setLive true).sent = Sent.start ∧
      ((w.setLive false).setLive true).running = w.running := by
  unfold setLive
  cases hl : w.live <;> simp [hl]

end Watch
end Linger
