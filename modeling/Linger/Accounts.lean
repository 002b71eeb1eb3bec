import Linger.FiniteMap
import Linger.Names
import Linger.Posts
import Linger.StepMachine

/-! The accounts of a server. A request is authenticated, makes its checks on what it reads, and
then writes in one transaction on the one writer; anything may happen between those steps. -/
namespace Linger.Accounts
open FiniteMap StepMachine Names
open Linger.Posts (asWords closedWords)

local instance textLawful : LawfulBEq (List Char) := inferInstance

abbrev UserId := ℕ
abbrev RoomId := ℕ
abbrev MessageId := ℕ

/-- A row of `users`. -/
structure Row where
  username : Text
  displayName : Text
  passwordHash : Text
  isHost : Bool
  isCohost : Bool
  timeZone : Option Text
  deactivatedAt : Option ℕ
  deletedAt : Option ℕ
  tokenGeneration : ℕ
deriving DecidableEq

/-- `deactivated_at IS NULL`: somebody on the server now. -/
def Row.active (row : Row) : Bool := row.deactivatedAt.isNone

structure Style where
  fontKey : Text
  weight : ℕ
  italic : Bool
  fillFrom : Text
  fillTo : Option Text
  effect : ℕ
  msgFontKey : Option Text
deriving DecidableEq

structure StatusField where
  label : Text
  value : Text
deriving DecidableEq

/-- A status as it is asked for: no `fields` is an app from before they were there. -/
structure UserStatus where
  line : Option Text
  listening : Option Text
  reading : Option Text
  workingOn : Option Text
  fields : Option (List StatusField)
  awayMessage : Option Text
deriving DecidableEq

/-- A row of `user_status`. -/
structure StatusRow where
  line : Option Text
  listening : Option Text
  reading : Option Text
  workingOn : Option Text
  awayMessage : Option Text
  awaySince : Option ℕ
deriving DecidableEq

structure ReadMarker where
  userId : UserId
  roomId : RoomId
  lastReadId : MessageId
deriving DecidableEq

structure NotifyRule where
  userId : UserId
  targetUserId : UserId
  roomId : Option RoomId
deriving DecidableEq

structure Block where
  userId : UserId
  blockedId : UserId
deriving DecidableEq

/-- A row of `refresh_tokens`. A family goes by the token it began with. -/
structure RefreshToken where
  userId : UserId
  familyId : ℕ
  token : ℕ
  expiresAt : ℕ
  revokedAt : Option ℕ
deriving DecidableEq

structure Reaction where
  messageId : MessageId
  userId : UserId
  key : Text
deriving DecidableEq

/-- What kind of line a message is: at most one of its columns says so, and a poll has a row
beside. -/
inductive Line where
  | said
  | motd
  | poll (question : Text) (closesAt : ℕ) (closedAt : Option ℕ)
  | pollClosed (poll : MessageId)
  | voiceJoin
  | dmLeft
  | screenShare
deriving DecidableEq

structure Message where
  id : MessageId
  roomId : RoomId
  authorId : UserId
  body : Text
  deletedAt : Option ℕ
  pinnedAt : Option ℕ
  line : Line
deriving DecidableEq

/-- The quiet lines that say somebody joined voice, left a DM or shared their screen. -/
def Line.quiet : Line → Bool
  | .voiceJoin | .dmLeft | .screenShare => true
  | _ => false

def Message.quiet (message : Message) : Bool := message.line.quiet

def Message.closesPoll (message : Message) : Bool :=
  match message.line with
  | .pollClosed _ => true
  | _ => false

structure Db where
  users : FMap UserId Row
  style : FMap UserId Style
  status : FMap UserId StatusRow
  statusFields : FMap UserId (List StatusField)
  entranceSounds : FMap UserId Text
  readMarkers : List ReadMarker
  notifyRules : List NotifyRule
  blocks : List Block
  refreshTokens : List RefreshToken
  messages : List Message
  reactions : List Reaction

/-- What the server asks of code that is not its own: Unicode's tables, the rules for a display name
that rest on them, and the check of a password against a hash. -/
structure Outside where
  unicode : Unicode
  displayNameFits : Text → Bool
  verify : Text → Text → Bool

def activeRow (db : Db) (id : UserId) : Option Row := (db.users[id]?).filter Row.active

/-- An account emptied for good. -/
def isDeleted (db : Db) (id : UserId) : Bool := ((db.users[id]?).bind Row.deletedAt).isSome

def isRemoved (db : Db) (id : UserId) : Bool := ((db.users[id]?).bind Row.deactivatedAt).isSome

section Look
variable (outside : Outside)

def looksLike (name other : Text) : Bool :=
  (Shapes.of outside.unicode name).meet (Shapes.of outside.unicode other)

/-- `refuse_look_alike`: an active member other than `me` whose display name or username looks
so. -/
def refuseLookAlike (db : Db) (name : Text) (me : Option UserId) : Bool :=
  (db.users.toList.filter fun entry => entry.2.active && me != some entry.1).any fun entry =>
    looksLike outside name entry.2.displayName || looksLike outside name entry.2.username

end Look

/-- `validate::username`. -/
def usernameFits (username : Text) : Bool :=
  2 ≤ username.length && username.length ≤ 24 &&
    username.all fun c => ('a' ≤ c && c ≤ 'z') || ('0' ≤ c && c ≤ '9') || c == '_'

/-- A change to the row there is, if there is one: `UPDATE users … WHERE id = ?`. -/
def updateUser (db : Db) (id : UserId) (f : Row → Row) : Db :=
  { db with users := db.users.modify id f }

/-- `end_sign_ins`. -/
def endSignIns (db : Db) (id : UserId) (now : ℕ) : Db :=
  updateUser
    { db with
      refreshTokens := db.refreshTokens.map fun token =>
        if token.userId = id ∧ token.revokedAt = none then { token with revokedAt := some now }
          else token }
    id fun row => { row with tokenGeneration := row.tokenGeneration + 1 }

/-- `register`, once its invite is spent: the name is checked here, on the one writer. -/
def register (outside : Outside) (db : Db) (id : UserId) (username displayName passwordHash : Text)
    (style : Style) : Option Db :=
  if refuseLookAlike outside db (trim displayName) none then none
  else if (db.users[id]?).isSome ||
    (db.users.toList.any fun entry => entry.2.username == username) then none
  else some { db with
    users := db.users.insert id ⟨username, trim displayName, passwordHash, false, false, none, none,
      none, 0⟩
    style := db.style.insert id style }

structure UpdateMe where
  displayName : Option Text
  style : Option Style
  status : Option UserStatus
  entranceSound : Option Text
  timeZone : Option Text
deriving DecidableEq

def statusLabelListening : Text := "Listening to".toList
def statusLabelReading : Text := "Reading".toList
def statusLabelWorkingOn : Text := "Working on".toList

/-- `classic_of`: the value under the label, if a field has it. -/
def fieldOf (fields : List StatusField) (label : Text) : Option Text :=
  (fields.find? fun field => field.label = label).map StatusField.value

/-- One turn of `apply_classic`'s loop: the fields there are, and the ones to add. -/
def applyClassicStep (held : List StatusField × List StatusField) (sent : Text × Option Text) :
    List StatusField × List StatusField :=
  let value := (sent.2.map trim).filter fun value => !value.isEmpty
  match held.1.findIdx? fun field => field.label = sent.1, value with
  | some at', some value => (held.1.modify at' fun field => { field with value := value }, held.2)
  | some at', none => (held.1.eraseIdx at', held.2)
  | none, some value => (held.1, held.2 ++ [⟨sent.1, value⟩])
  | none, none => held

/-- `MAX_STATUS_FIELDS`. -/
def maxStatusFields : ℕ := 3

/-- `apply_classic`: `none` for a value that would make a fourth field. -/
def applyClassic (fields : List StatusField) (status : UserStatus) : Option (List StatusField) :=
  let sent := [(statusLabelListening, status.listening), (statusLabelReading, status.reading),
    (statusLabelWorkingOn, status.workingOn)]
  let held := sent.foldl applyClassicStep (fields, [])
  if held.1.length + held.2.length > maxStatusFields then none else some (held.1 ++ held.2)

def saveName (db : Db) (id : UserId) (name : Text) : Db :=
  updateUser db id fun row => { row with displayName := trim name }

def saveStyle (db : Db) (id : UserId) (style : Style) : Db :=
  { db with style := db.style.insert id style }

/-- `set_status_fields`. -/
def setStatusFields (db : Db) (id : UserId) (fields : List StatusField) : Db :=
  { db with statusFields := if fields = [] then
    db.statusFields.erase id else db.statusFields.insert id fields }

/-- `away_since`: stamped when an away message appears or changes, cleared with it. -/
def awaySince (held : Option StatusRow) (awayMessage : Option Text) (now : ℕ) : Option ℕ :=
  match awayMessage, held with
  | none, _ => none
  | some new, some row =>
    if row.awayMessage = some new ∧ row.awaySince.isSome then row.awaySince else some now
  | some _, none => some now

def saveStatus (db : Db) (id : UserId) (status : UserStatus) (now : ℕ) : Option Db :=
  let fields := match status.fields with
    | some fields => some fields
    | none => applyClassic ((db.statusFields[id]?).getD []) status
  fields.map fun fields =>
    let row := ⟨status.line, fieldOf fields statusLabelListening, fieldOf fields statusLabelReading,
      fieldOf fields statusLabelWorkingOn, status.awayMessage,
      awaySince db.status[id]? status.awayMessage now⟩
    { setStatusFields db id fields with status := db.status.insert id row }

def saveSound (db : Db) (id : UserId) (sound : Text) : Db :=
  { db with
    entranceSounds :=
      if sound = [] then db.entranceSounds.erase id else db.entranceSounds.insert id sound }

def saveTimeZone (db : Db) (id : UserId) (zone : Text) : Db :=
  updateUser db id fun row => { row with timeZone := (some zone).filter fun zone => zone ≠ [] }

/-- The name in a `PATCH /me`. `nameChanged` was read before the transaction, and asks for the
check. -/
def patchName (outside : Outside) (db : Db) (id : UserId) (nameChanged : Bool) :
    Option Text → Option Db
  | none => some db
  | some name =>
    if nameChanged && refuseLookAlike outside db (trim name) (some id) then none
      else some (saveName db id name)

def patchStyle (db : Db) (id : UserId) : Option Style → Db
  | none => db
  | some style => saveStyle db id style

def patchStatus (db : Db) (id : UserId) (now : ℕ) : Option UserStatus → Option Db
  | none => some db
  | some status => saveStatus db id status now

def patchSound (db : Db) (id : UserId) : Option Text → Db
  | none => db
  | some sound => saveSound db id sound

def patchTimeZone (db : Db) (id : UserId) : Option Text → Db
  | none => db
  | some zone => saveTimeZone db id zone

/-- `patch_me`'s transaction: all of what was sent, or none of it. -/
def patchMe (outside : Outside) (db : Db) (id : UserId) (body : UpdateMe) (nameChanged : Bool)
    (now : ℕ) :
    Option Db :=
  (patchName outside db id nameChanged body.displayName).bind fun db =>
    (patchStatus (patchStyle db id body.style) id now body.status).map fun db =>
      patchTimeZone (patchSound db id body.entranceSound) id body.timeZone

/-- `change_password`'s transaction. -/
def changePassword (db : Db) (id : UserId) (newHash : Text) (now : ℕ) : Db :=
  endSignIns (updateUser db id fun row => { row with passwordHash := newHash }) id now

/-- `REFRESH_TTL_MS`. -/
def refreshTtlMs : ℕ := 30 * 24 * 60 * 60 * 1000

/-- `issue_refresh_family`. -/
def issueRefreshFamily (db : Db) (id : UserId) (token now : ℕ) : Db :=
  { db with refreshTokens := db.refreshTokens ++ [⟨id, token, token, now + refreshTtlMs, none⟩] }

/-- What a spent token that is shown again ends: its whole family. -/
def revokeFamily (db : Db) (family now : ℕ) : Db :=
  { db with
    refreshTokens := db.refreshTokens.map fun token =>
      if token.familyId = family ∧ token.revokedAt = none then { token with revokedAt := some now }
        else token }

/-- How `rotate_refresh` and `share_family` look at the token they are shown: `none` is a
refusal. -/
def presentRefresh (db : Db) (token now : ℕ) (live : RefreshToken → Db) : Option Db :=
  (db.refreshTokens.find? fun held => held.token = token).bind fun held =>
    if held.revokedAt.isSome then some (revokeFamily db held.familyId now)
    else if held.expiresAt ≤ now then none
    else if (activeRow db held.userId).isSome then some (live held)
    else none

/-- `rotate_refresh`: one token of the family for the next. -/
def rotateRefresh (db : Db) (token new now : ℕ) : Option Db :=
  presentRefresh db token now fun held =>
    { db with
      refreshTokens := (db.refreshTokens.map fun other =>
          if other.token = token then { other with revokedAt := some now } else other) ++
        [⟨held.userId, held.familyId, new, now + refreshTtlMs, none⟩] }

/-- `share_family`: a family of its own, the token shown left as it was. -/
def shareFamily (db : Db) (token new now : ℕ) : Option Db :=
  presentRefresh db token now fun held => issueRefreshFamily db held.userId new now

/-- `use_link`'s transaction, of a link that still works: a new password for somebody on the server
now. -/
def useLink (db : Db) (id : UserId) (newHash : Text) (now : ℕ) : Option Db :=
  if (activeRow db id).any fun row => !row.isHost then some (changePassword db id newHash now)
    else none

/-- `advance_read_marker`: forward only. -/
def advanceReadMarker (db : Db) (id : UserId) (room : RoomId) (message : MessageId) : Db :=
  if db.readMarkers.any fun marker => marker.userId = id ∧ marker.roomId = room then
    { db with
      readMarkers := db.readMarkers.map fun marker =>
        if marker.userId = id ∧ marker.roomId = room ∧ marker.lastReadId < message then
          { marker with lastReadId := message }
        else marker }
  else { db with readMarkers := db.readMarkers ++ [⟨id, room, message⟩] }

def say (db : Db) (message : Message) : Db := { db with messages := db.messages ++ [message] }

/-- What posting writes: the message, and the marker of whoever posted it. -/
def create (db : Db) (author : UserId) (room : RoomId) (body : Text) (id : MessageId) : Db :=
  advanceReadMarker (say db ⟨id, room, author, body, none, none, .said⟩) author room id

def DAY_MS : ℕ := 24 * 60 * 60 * 1000

/-- What asking a poll writes: the poll, as words too, and the marker of whoever asked. -/
def createPoll (db : Db) (author : UserId) (room : RoomId) (question : Text) (choices : List Text)
    (closesInDays : ℕ) (id : MessageId) (now : ℕ) : Db :=
  advanceReadMarker
    (say db ⟨id, room, author, asWords question choices, none, none,
      .poll question (now + closesInDays * DAY_MS) none⟩)
    author room id

/-- `polls::close`: the poll closed, and the line that says so in the name of whoever asked. -/
def closePoll (db : Db) (poll : MessageId) (winners : List Text) (id : MessageId) (now : ℕ) :
    Option Db :=
  (db.messages.find? fun message => decide (message.id = poll) && message.deletedAt.isNone).bind
      fun asked =>
    match asked.line with
    | .poll question closesAt none =>
      let closed := { asked with line := .poll question closesAt (some now) }
      some (say { db with messages := db.messages.map fun held => if held = asked then
        closed else held }
        ⟨id, asked.roomId, asked.authorId, closedWords question winners, none, none,
          .pollClosed poll⟩)
    | _ => none

/-- What changing a room writes of anybody's: the line that says its new message of the day, if
there is one to say. Clearing it writes none. -/
def updateRoom (db : Db) (author : UserId) (room : RoomId) (motd : Option Text) (changed : Bool)
    (id : MessageId) : Db :=
  match motd with
  | some text =>
    if changed && !text.isEmpty then say db ⟨id, room, author, text, none, none, .motd⟩ else db
  | none => db

/-- `MAX_REACTIONS_PER_MESSAGE`. -/
def maxReactionsPerMessage : ℕ := 6

/-- The one statement of `add_reaction`: at most six different emoji on a message. -/
def addReaction (db : Db) (id : UserId) (message : MessageId) (key : Text) : Db :=
  let on := (db.reactions.filter fun reaction => reaction.messageId = message).map Reaction.key
  if (key ∈ on ∨ on.dedup.length < maxReactionsPerMessage) ∧ ⟨message, id, key⟩ ∉ db.reactions then
    { db with reactions := db.reactions ++ [⟨message, id, key⟩] }
  else db

/-- `put_notify_rule`: delete, then insert. -/
def putNotifyRule (db : Db) (id target : UserId) (room : Option RoomId) : Db :=
  { db with notifyRules := (db.notifyRules.filter fun rule => rule ≠ ⟨id, target, room⟩) ++
    [⟨id, target, room⟩] }

def block (db : Db) (id blocked : UserId) : Db :=
  if ⟨id, blocked⟩ ∈ db.blocks then db else { db with blocks := db.blocks ++ [⟨id, blocked⟩] }

def removeUser (db : Db) (id : UserId) (now : ℕ) : Db :=
  endSignIns
    (updateUser db id fun row =>
      if row.active then { row with deactivatedAt := some now, isCohost := false } else row)
    id now

def restoreUser (db : Db) (id : UserId) : Db :=
  updateUser db id fun row => { row with deactivatedAt := none }

def setCohost (db : Db) (id : UserId) (on : Bool) : Db :=
  updateUser db id fun row => if row.isHost = false ∧ row.active = true then
    { row with isCohost := on } else row

/-- `THEIRS`. -/
def theirs (id : UserId) (message : Message) : Bool :=
  message.authorId = id && message.deletedAt.isNone && !message.quiet

/-- `erase_what_they_wrote`. -/
def eraseWhatTheyWrote (db : Db) (id : UserId) (now : ℕ) : Db :=
  { db with
    reactions := db.reactions.filter fun reaction =>
      (!db.messages.any fun message => message.id = reaction.messageId && theirs id message) &&
        decide (reaction.userId ≠ id)
    messages := db.messages.map fun message =>
      if theirs id message then { message with body := [], deletedAt := some now, pinnedAt := none }
        else message }

/-- What an emptied row keeps. -/
def Row.emptied (row : Row) (now : ℕ) : Row :=
  { row with displayName := [], passwordHash := [], isCohost := false, timeZone := none,
             deactivatedAt := row.deactivatedAt <|> some now, deletedAt := some now }

/-- What was theirs alone. -/
def dropTheirs (db : Db) (id : UserId) : Db :=
  { db with
    style := db.style.erase id
    status := db.status.erase id
    statusFields := db.statusFields.erase id
    entranceSounds := db.entranceSounds.erase id
    readMarkers := db.readMarkers.filter fun marker => marker.userId ≠ id
    notifyRules := db.notifyRules.filter fun rule => rule.userId ≠ id ∧ rule.targetUserId ≠ id
    blocks := db.blocks.filter fun block => block.userId ≠ id
    refreshTokens := db.refreshTokens.filter fun token => token.userId ≠ id }

/-- `leave_all`: the lines that say so, one for each DM they go from and its id. -/
def leaveAll (db : Db) (id : UserId) (dms : List (RoomId × MessageId)) : Db :=
  { db with
    messages := db.messages ++ dms.map fun dm => ⟨dm.2, dm.1, id, [], none, none, .dmLeft⟩ }

/-- `accounts::delete`'s transaction: `none` for no such account, a deleted one, or the host's. -/
def delete (db : Db) (id : UserId) (everything : Bool) (now : ℕ) (dms : List (RoomId × MessageId)) :
    Option Db :=
  match db.users[id]? with
  | none => none
  | some row =>
    if row.isHost || row.deletedAt.isSome then none
    else
      let db := endSignIns (updateUser db id fun row => row.emptied now) id now
      let db := if everything then eraseWhatTheyWrote db id now else db
      some (leaveAll (dropTheirs db id) id dms)

end Linger.Accounts
