import Linger.Gateway

/-! Where each session says its person is, what everybody is told from it, and
the calls that change either. Each call is one step here, as the source makes it
while it holds the person's entry in `session_presence`; the calls that can end
a person's last session are cut at the points where other tasks get in, and
`GatewayTelling` runs the pieces apart. -/
namespace Linger
open FiniteMap

/-- A session as its first socket opens: around, in no room. -/
def SessionPresence.arrived : SessionPresence := ⟨none, .around, none, 0, 0, 0, none, false⟩

/-- Its app speaks for it again after a resume: from here it is what the app
says, starting where the app starts. Answers whether it was held over. -/
def SessionPresence.speaksAgain (own : SessionPresence) : SessionPresence × Bool :=
  if own.heldOver then
    ({ SessionPresence.arrived with sockets := own.sockets, dropped := own.dropped }, true)
  else (own, false)

/-- I'm back, for one session: an away one is around again. -/
def SessionPresence.comeBack (own : SessionPresence) : SessionPresence :=
  if own.state = .away then { own with state := .around, awayMessage := none } else own

/-- What a change to one session did to what everybody is told. -/
inductive Merged
  | same | changed | moved
  deriving DecidableEq, Repr

/-- Away on any session is away, in no room; else the room moved into most
recently; else around if any session is; else idle. -/
def merge (userId : UserId) (sessions : List SessionPresence) : Option PresenceEntry :=
  if sessions.isEmpty then none
  else
    match maxByKey SessionPresence.awayAt (sessions.filter fun s => s.state = .away) with
    | some away => some ⟨userId, .away, none, away.awayMessage⟩
    | none =>
      match maxByKey SessionPresence.movedAt (sessions.filter fun s => s.roomId.isSome) with
      | some room => some ⟨userId, .inRoom, room.roomId, none⟩
      | none =>
        if sessions.any fun s => s.state = .around then some ⟨userId, .around, none, none⟩
        else some ⟨userId, .idle, none, none⟩

def samePresence (a b : PresenceEntry) : Bool :=
  a.userId = b.userId && a.state = b.state && a.roomId = b.roomId && a.awayMessage = b.awayMessage

def offlineEntry (userId : UserId) : PresenceEntry := ⟨userId, .offline, none, none⟩

namespace Gateway

/-- What is held under a person's key in `session_presence`. -/
def recordsOf (g : Gateway) (userId : UserId) : FMap SessionId SessionPresence :=
  (g.sessionPresence[userId]?).getD ∅

def putRecords (g : Gateway) (userId : UserId) (sessions : FMap SessionId SessionPresence) :
    Gateway :=
  { g with sessionPresence := g.sessionPresence.insert userId sessions }

/-- Work a person's presence out again from what their sessions say, and keep
it when it changed. A person with no session left is the caller's to take offline. -/
def remerge (g : Gateway) (userId : UserId) (sessions : FMap SessionId SessionPresence) :
    Gateway × Merged :=
  match merge userId (vals sessions) with
  | none => (g, .same)
  | some merged =>
    match g.presence[userId]? with
    | some before =>
      if samePresence before merged then (g, .same)
      else ({ g with presence := g.presence.insert userId merged },
        if before.roomId ≠ merged.roomId then .moved else .changed)
    | none => ({ g with presence := g.presence.insert userId merged }, .changed)

/-- A changed record is written into its person's entry and they are merged again. -/
def writeOwn (g : Gateway) (userId : UserId) (sessionId : SessionId) (own : SessionPresence) :
    Gateway × Merged :=
  let sessions := (g.recordsOf userId).insert sessionId own
  (g.putRecords userId sessions).remerge userId sessions

/-- A state other than idle or away counts as around. -/
def saidState (state : PresenceState) : PresenceState :=
  match state with
  | .away | .idle => state
  | .around | .inRoom | .offline => .around

/-- The away message is kept only with away, without what turns text around. -/
def saidAway (state : PresenceState) (awayMessage : Option String) : Option String :=
  (awayMessage.filter fun _ => saidState state = .away).map withoutDirectionOverrides

def updatePresence (g : Gateway) (userId : UserId) (sessionId : SessionId) (state : PresenceState)
    (awayMessage : Option String) : Gateway × Merged :=
  match (g.recordsOf userId)[sessionId]? with
  | none => (g, .same)
  | some own =>
    let (own, restarted) := own.speaksAgain
    if !restarted && own.state = saidState state &&
        own.awayMessage = saidAway state awayMessage then
      (g, .same)
    else
      let order := if saidState state = .away then g.presenceOrder + 1 else g.presenceOrder
      let g : Gateway := { g with presenceOrder := order }
      g.writeOwn userId sessionId
        { own with
          awayAt := if saidState state = .away then order else own.awayAt
          state := saidState state
          awayMessage := saidAway state awayMessage }

/-- Move one of somebody's sessions to a room, or out of every room. An idle
session is around again; one that is away stays away. -/
def moveTo (g : Gateway) (userId : UserId) (sessionId : SessionId) (roomId : Option RoomId) :
    Gateway × Merged :=
  match (g.recordsOf userId)[sessionId]? with
  | none => (g, .same)
  | some own =>
    let (own, restarted) := own.speaksAgain
    if !restarted && own.roomId = roomId then (g, .same)
    else
      let g : Gateway := { g with presenceOrder := g.presenceOrder + 1 }
      g.writeOwn userId sessionId
        { own with
          roomId := roomId
          movedAt := g.presenceOrder
          state := if own.state = .idle then .around else own.state }

/-- Away ends on every one of their sessions, not only the one that set it. -/
def backEverywhere (g : Gateway) (userId : UserId) : Gateway × Merged :=
  let sessions := g.recordsOf userId
  if (vals sessions).any fun own => own.state = .away then
    let sessions := sessions.map fun _ own => SessionPresence.comeBack own
    (g.putRecords userId sessions).remerge userId sessions
  else (g, .same)

/-- Tell everybody somebody's presence as it is now, while the entry is held. -/
def tellPresence (g : Gateway) (userId : UserId) : Gateway :=
  match g.presence[userId]? with
  | some entry => g.publish (.presenceUpdate entry)
  | none => g

def tellLeave (g : Gateway) (userId : UserId) (before : Option RoomId) : Gateway :=
  match before.filter fun room => !g.isDm room with
  | some prev =>
    (g.publish (.roomLeave prev userId)).publish (.roomOccupancy prev (g.occupancy prev))
  | none => g

def tellEnter (g : Gateway) (userId : UserId) (now : Option RoomId)
    (entranceSound : Option String) : Gateway :=
  match now.filter fun room => !g.isDm room with
  | some new =>
    (g.publish (.roomEnter new userId entranceSound)).publish (.roomOccupancy new (g.occupancy new))
  | none => g

def rememberFocus (g : Gateway) (userId : UserId) (room : Option RoomId) : Gateway :=
  { g with focusTold := g.focusTold.insert userId room }

def forgetFocus (g : Gateway) (userId : UserId) : Gateway :=
  { g with focusTold := g.focusTold.erase userId }

/-- `tell_focus` for as long as it holds the `focus_told` entry: leave, enter,
occupancy, presence. Answers whether the person turned out to be offline, whose
entry is then removed once it has been let go of (`forgetFocus`). -/
def tellFocus (g : Gateway) (userId : UserId) (entranceSound : Option String) : Gateway × Bool :=
  let before := (g.focusTold[userId]?).getD none
  let g := g.rememberFocus userId before
  match g.presence[userId]? with
  | none => (g, true)
  | some entry =>
    let g :=
      if before ≠ entry.roomId then
        ((g.tellLeave userId before).tellEnter userId entry.roomId entranceSound).rememberFocus
          userId entry.roomId
      else g
    (g.tellPresence userId, false)

/-- The whole of `tell_focus` when nothing runs between its two sections. -/
def tellFocusWhole (g : Gateway) (userId : UserId) (entranceSound : Option String) : Gateway :=
  let (g, offline) := g.tellFocus userId entranceSound
  if offline then g.forgetFocus userId else g

/-- A socket came up on this session, up to the merge. A resume inside the
grace period after a drop finds the record it left, held over from here. -/
def openRecord (own : SessionPresence) : SessionPresence :=
  { own with
    heldOver := if own.sockets = 0 ∧ own.dropped.isSome then true else own.heldOver
    sockets := own.sockets + 1 }

def connectionOpening (g : Gateway) (userId : UserId) (sessionId : SessionId) : Gateway × Merged :=
  g.writeOwn userId sessionId
    (openRecord (((g.recordsOf userId)[sessionId]?).getD SessionPresence.arrived))

def connectionOpened (g : Gateway) (userId : UserId) (sessionId : SessionId) : Gateway :=
  let (g, merged) := g.connectionOpening userId sessionId
  if merged ≠ .same then g.tellPresence userId else g

/-- Out of their room while their last session goes. Answers whether they were in one. -/
def goneFromRoom (g : Gateway) (userId : UserId) : Gateway × Bool :=
  match g.presence[userId]? with
  | some entry =>
    if entry.roomId.isSome then
      ({ g with
          presence := g.presence.insert userId { entry with roomId := none, state := .around } },
            true)
    else (g, false)
  | none => (g, false)

def toldSomewhere (g : Gateway) (userId : UserId) : Bool :=
  ((g.focusTold[userId]?).getD none).isSome

def forgetPresence (g : Gateway) (userId : UserId) : Gateway :=
  { g with presence := g.presence.erase userId }

def tellOffline (g : Gateway) (userId : UserId) : Gateway :=
  g.publish (.presenceUpdate (offlineEntry userId))

def forgetRecords (g : Gateway) (userId : UserId) : Gateway :=
  { g with sessionPresence := g.sessionPresence.erase userId }

/-- The end of `session_gone` for a person with no session left. -/
def goOffline (g : Gateway) (userId : UserId) : Gateway :=
  let (g, moved) := g.goneFromRoom userId
  let g := if moved || g.toldSomewhere userId then g.tellFocusWhole userId none else g
  (((g.forgetFocus userId).forgetPresence userId).tellOffline userId).forgetRecords userId

/-- A session has no socket left, so what it said goes with it. No answer when
it was the person's last: the caller, still holding their entry, takes them
offline. -/
def sessionLeaves (g : Gateway) (userId : UserId) (sessionId : SessionId) :
    Gateway × Option Merged :=
  let person := (g.recordsOf userId).erase sessionId
  let g := g.putRecords userId person
  if person = ∅ then (g, none) else (g.remerge userId person).map id some

/-- The whole of `session_gone` from `sessionLeaves` on, with nothing in between. -/
def finish (userId : UserId) (left : Gateway × Option Merged) : Gateway × Merged :=
  match left.2 with
  | some merged => (left.1, merged)
  | none => (left.1.goOffline userId, .same)

def sessionGone (g : Gateway) (userId : UserId) (sessionId : SessionId) : Gateway × Merged :=
  finish userId (g.sessionLeaves userId sessionId)

/-- A socket went away with a goodbye, or its session hung up on it, up to
where its person turns out to have no session left. -/
def connectionClosing (g : Gateway) (userId : UserId) (sessionId : SessionId) :
    Gateway × Option Merged :=
  match (g.recordsOf userId)[sessionId]? with
  | none => (g, some .same)
  | some own =>
    let own := { own with sockets := own.sockets - 1 }
    let g := g.putRecords userId ((g.recordsOf userId).insert sessionId own)
    if own.sockets > 0 then (g, some .same) else g.sessionLeaves userId sessionId

def connectionClosed (g : Gateway) (userId : UserId) (sessionId : SessionId) : Gateway × Merged :=
  finish userId (g.connectionClosing userId sessionId)

/-- A socket went without a goodbye. Answers the drop's number when it was its
session's last. -/
def connectionDropped (g : Gateway) (userId : UserId) (sessionId : SessionId) :
    Gateway × Option ℕ :=
  match (g.recordsOf userId)[sessionId]? with
  | none => (g, none)
  | some own =>
    let own := { own with sockets := own.sockets - 1 }
    if own.sockets > 0 then
      (g.putRecords userId ((g.recordsOf userId).insert sessionId own), none)
    else
      let g : Gateway := { g with drops := g.drops + 1 }
      let own := { own with dropped := some g.drops }
      (g.putRecords userId ((g.recordsOf userId).insert sessionId own), some g.drops)

/-- The grace period after drop `number` is over, up to where its person turns
out to have no session left. -/
def graceEnding (g : Gateway) (userId : UserId) (sessionId : SessionId) (number : ℕ) :
    Gateway × Option Merged :=
  match (g.recordsOf userId)[sessionId]? with
  | none => (g, some .same)
  | some own =>
    if own.dropped ≠ some number then (g, some .same)
    else
      let own := { own with dropped := none }
      let g := g.putRecords userId ((g.recordsOf userId).insert sessionId own)
      if own.sockets = 0 then g.sessionLeaves userId sessionId
      else
        let (own, restarted) := own.speaksAgain
        if restarted then (g.writeOwn userId sessionId own).map id some else (g, some .same)

def graceOver (g : Gateway) (userId : UserId) (sessionId : SessionId) (number : ℕ) :
    Gateway × Merged :=
  finish userId (g.graceEnding userId sessionId number)

section Frames
variable (g : Gateway) (u : UserId)

@[simp] theorem publish_presence (e : ServerEvent) : (g.publish e).presence = g.presence := rfl
@[simp] theorem publish_sessionPresence (e : ServerEvent) :
    (g.publish e).sessionPresence = g.sessionPresence := rfl
@[simp] theorem publish_presenceOrder (e : ServerEvent) :
    (g.publish e).presenceOrder = g.presenceOrder := rfl

/-- Telling only ever puts frames on the bus and moves what was last told. -/
structure OnlyTells (g g' : Gateway) : Prop where
  presence : g'.presence = g.presence
  sessionPresence : g'.sessionPresence = g.sessionPresence
  presenceOrder : g'.presenceOrder = g.presenceOrder
  drops : g'.drops = g.drops
  dmMembers : g'.dmMembers = g.dmMembers
  presenceHeld : g'.presenceHeld = g.presenceHeld
  focusHeld : g'.focusHeld = g.focusHeld

theorem OnlyTells.refl : OnlyTells g g := ⟨rfl, rfl, rfl, rfl, rfl, rfl, rfl⟩

theorem OnlyTells.trans {g g' g'' : Gateway} (h : OnlyTells g g') (h' : OnlyTells g' g'') :
    OnlyTells g g'' :=
  ⟨h'.presence.trans h.presence, h'.sessionPresence.trans h.sessionPresence,
    h'.presenceOrder.trans h.presenceOrder, h'.drops.trans h.drops,
    h'.dmMembers.trans h.dmMembers, h'.presenceHeld.trans h.presenceHeld,
    h'.focusHeld.trans h.focusHeld⟩

theorem onlyTells_publish (e : ServerEvent) : OnlyTells g (g.publish e) :=
  ⟨rfl, rfl, rfl, rfl, rfl, rfl, rfl⟩

theorem onlyTells_tellPresence : OnlyTells g (g.tellPresence u) := by
  unfold tellPresence
  split
  · exact onlyTells_publish g _
  · exact OnlyTells.refl g

theorem onlyTells_tellLeave (before : Option RoomId) : OnlyTells g (g.tellLeave u before) := by
  unfold tellLeave
  split
  · exact (onlyTells_publish g _).trans (onlyTells_publish _ _)
  · exact OnlyTells.refl g

theorem onlyTells_tellEnter (now : Option RoomId) (sound : Option String) :
    OnlyTells g (g.tellEnter u now sound) := by
  unfold tellEnter
  split
  · exact (onlyTells_publish g _).trans (onlyTells_publish _ _)
  · exact OnlyTells.refl g

theorem onlyTells_rememberFocus (room : Option RoomId) : OnlyTells g (g.rememberFocus u room) :=
  ⟨rfl, rfl, rfl, rfl, rfl, rfl, rfl⟩

theorem onlyTells_forgetFocus : OnlyTells g (g.forgetFocus u) :=
  ⟨rfl, rfl, rfl, rfl, rfl, rfl, rfl⟩

theorem onlyTells_tellFocus (sound : Option String) : OnlyTells g (g.tellFocus u sound).1 := by
  unfold tellFocus
  dsimp only
  split
  · exact onlyTells_rememberFocus g u _
  · refine (onlyTells_rememberFocus g u ((g.focusTold[u]?).getD none)).trans
      (OnlyTells.trans ?_ (onlyTells_tellPresence _ u))
    split
    · exact ((onlyTells_tellLeave _ u _).trans (onlyTells_tellEnter _ u _ _)).trans
        (onlyTells_rememberFocus _ u _)
    · exact OnlyTells.refl _

theorem onlyTells_tellFocusWhole (sound : Option String) :
    OnlyTells g (g.tellFocusWhole u sound) := by
  unfold tellFocusWhole
  dsimp only
  split
  · exact (onlyTells_tellFocus g u sound).trans (onlyTells_forgetFocus _ u)
  · exact onlyTells_tellFocus g u sound

end Frames
end Gateway
end Linger
