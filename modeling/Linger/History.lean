import Linger.MessageRow

/-! A room's history in a client: pages and windows of it that are asked for, read by the
server at some moment and answered at a later one, frames about it in the order of what they
tell, and the answers to what the client itself posts and changes. -/
namespace Linger.Messages

/-- What a request writes, by itself: nothing, when it finds nothing to change. -/
def Request.rewrite (now : ℕ) (row : Row) : Request → Option Row
  | .edit body => some { row with body := body, editedAt := some now }
  | .delete => some { row with body := [], deletedAt := some now, pinnedAt := none }
  | .setPin pinned => some { row with pinnedAt := if pinned then some now else none }
  | .addReaction userId key =>
    if addsReaction row.reactions userId key then
      some { row with reactions := insertReaction row.reactions ⟨userId, key, now⟩ }
    else none
  | .removeReaction userId key =>
    if row.reactions.any fun r => r.userId = userId && r.key = key then
      some { row with
        reactions := row.reactions.filter fun r => !(r.userId = userId && r.key = key) }
    else none
  | .vote userId choices =>
    some { row with poll := row.poll.map fun poll =>
      { poll with votes := ((choices.insertionSort (· ≤ ·)).foldl
          (fun votes position => insertVote votes ⟨position, userId, now⟩)
          (poll.votes.filter fun vote => vote.userId ≠ userId)) } }
  | .closePoll =>
    if row.deletedAt.isNone && PollRow.isOpen row.poll then
      some { row with poll := row.poll.map fun poll => { poll with closedAt := some now } }
    else none

end Linger.Messages

namespace Linger.History
open FiniteMap StepMachine
open Linger.Messages (Row Request ReactionGroup ReactionKey rowToMessage hydrateReactions
  hydratePoll reactionGroup withGroup)

/-- How many messages a page holds. -/
def pageSize : ℕ := 100

/-- The halves of a window, as the server splits it. -/
def windowOlder : ℕ := 50
def windowNewer : ℕ := 50

/-- How much is kept either side of what is on screen, and over how much it is let go of. -/
def keptBeyondView : ℕ := 3 * pageSize
def trimOver : ℕ := 8 * pageSize

/-- How often a first page that didn't come is asked for again. -/
def firstPageRetries : ℕ := 4

/-- A message as a client has it: `quiet` when it is a line that calls nobody over. -/
structure Held where
  id : MessageId
  authorId : UserId
  quiet : Bool
  message : Messages.Message
  deriving DecidableEq, Repr

/-- A message as the server has it. -/
structure Kept where
  id : MessageId
  authorId : UserId
  quiet : Bool
  row : Row
  deriving DecidableEq, Repr

/-- As it is read and told. -/
def Kept.told (kept : Kept) : Held :=
  { id := kept.id, authorId := kept.authorId, quiet := kept.quiet
    message := { rowToMessage kept.row with
      reactions := hydrateReactions kept.row.reactions, poll := kept.row.poll.map hydratePoll } }

def sortById (list : List Held) : List Held := list.insertionSort fun a b => a.id ≤ b.id

def holds (list : List Held) (id : MessageId) : Bool := list.any fun held => held.id = id

/-- In place of the one that has its id. -/
def putInPlace (list : List Held) (message : Held) : List Held :=
  list.replaceF fun held => if held.id = message.id then some message else none

/-- Insert or replace one message, keeping the list in id order. -/
def mergeMessage (list : List Held) (message : Held) : List Held :=
  if holds list message.id then putInPlace list message
  else match list.getLast? with
  | none => list ++ [message]
  | some newest =>
    if newest.id < message.id then list ++ [message] else sortById (list ++ [message])

/-- A map's `set`. -/
def setByKey (list : List Held) (message : Held) : List Held :=
  if holds list message.id then putInPlace list message else list ++ [message]

/-- Fold a fetched page into what is held. -/
def mergePage (list page : List Held) : List Held :=
  if page.isEmpty then list
  else
    let older := sortById page
    match list.head?, older.getLast? with
    | some first, some last =>
      if last.id < first.id then older ++ list else sortById (older.foldl setByKey list)
    | _, _ => older ++ list

structure Stream where
  messages : List Held
  atStart : Bool
  atEnd : Bool
  loading : Bool
  loaded : Bool
  opened : ℕ
  deriving DecidableEq, Repr

inductive Frame
  | create (message : Held)
  | update (message : Held)
  | delete (id : MessageId)
  | reaction (id : MessageId) (group : ReactionGroup)
  deriving DecidableEq, Repr

/-- What a client has asked for: a page before a message or the newest one (`tries` is how
often it is asked for again), a window around a message that replaces what is held or reads
on from it (`again` when it may read once more), what it posted, changed or deleted, and a
reaction it has shown already. -/
inductive Fetch
  | page (before : Option MessageId) (opened : ℕ) (tries : ℕ)
  | window (around : MessageId) (replace : Bool) (opened : ℕ) (again : Bool)
  | sent (id : MessageId)
  | changed (id : MessageId)
  | deleted (id : MessageId)
  | reacts (id : MessageId) (request : Request) (before : ReactionGroup)
  | refused (id : MessageId) (before : ReactionGroup)
  deriving DecidableEq, Repr

/-- What the server read, newest first, and how many messages the room had then. -/
structure Reading where
  page : List Held
  read : ℕ
  deriving DecidableEq, Repr

structure Flight where
  fetch : Fetch
  answer : Option Reading
  deriving DecidableEq, Repr

/-- The server's `room` in the order it was committed and the `frames` on their way, the
client's `stream` of it, and the `flights` between them. `delivered` is whose
`message.create` has come. -/
structure State where
  room : List Kept
  frames : List Frame
  delivered : List MessageId
  stream : Option Stream
  newest : Option MessageId
  blocked : List UserId
  openings : ℕ
  flights : FMap ℕ Flight

namespace State

def ends (st : State) (i : ℕ) : State := { st with flights := st.flights.erase i }

def asks (st : State) (i : ℕ) (fetch : Fetch) : State :=
  { st with flights := st.flights.insert i ⟨fetch, none⟩ }

def put (st : State) (stream : Stream) : State := { st with stream := some stream }

/-- The room's history as the opening that asked left it, if it is still that one. -/
def stillOpen (st : State) (opened : ℕ) : Option Stream :=
  st.stream.filter fun stream => stream.opened = opened

end State

/-- A new opening takes its place before it asks for its first page or window. -/
def opening (st : State) (i : ℕ) (atEnd : Bool) (fetch : ℕ → Fetch) : State :=
  ({ st with openings := st.openings + 1 }.put
    ⟨[], false, atEnd, true, false, st.openings + 1⟩).asks i (fetch (st.openings + 1))

def openRoom (st : State) (i : ℕ) : State :=
  if st.stream.any fun held => held.loaded || held.loading then st.ends i
  else opening st i true fun opened => .page none opened firstPageRetries

def leaveWindow (st : State) (i : ℕ) : State := openRoom { st with stream := none } i

def openAround (st : State) (i : ℕ) (around : MessageId) : State :=
  opening st i false fun opened => .window around true opened false

def loadOlder (st : State) (i : ℕ) : State :=
  match st.stream with
  | none => st.ends i
  | some stream =>
    if stream.loading || stream.atStart then st.ends i
    else (st.put { stream with loading := true }).asks i
      (.page (stream.messages.head?.map Held.id) stream.opened 0)

def loadNewer (st : State) (i : ℕ) (again : Bool) : State :=
  match st.stream with
  | none => st.ends i
  | some stream =>
    if stream.loading || stream.atEnd then st.ends i
    else match stream.messages.getLast? with
    | none => st.ends i
    | some newest =>
      (st.put { stream with loading := true }).asks i (.window newest.id false stream.opened again)

/-- A page has come. -/
def fetchPage (st : State) (i : ℕ) (before : Option MessageId) (opened : ℕ) (page : List Held) :
    State :=
  match st.stillOpen opened with
  | none => st.ends i
  | some stream =>
    if before.isSome && stream.messages.head?.map Held.id ≠ before then
      (st.put { stream with loading := false }).ends i
    else
      (st.put { stream with
        messages := mergePage stream.messages page
        atStart := page.length < pageSize
        loading := false
        loaded := true }).ends i

/-- Whether a window ends where the room did. -/
def pageEnds (around : MessageId) (page : List Held) : Bool :=
  (page.filter fun held => around < held.id).length < windowNewer

def reachesBack (around : MessageId) (page : List Held) : Bool :=
  (page.filter fun held => held.id ≤ around).length < windowOlder

/-- What is held once a window is folded in. -/
def windowed (stream : Stream) (replace : Bool) (page : List Held) : List Held :=
  if replace then sortById page else mergePage stream.messages page

/-- A message came meanwhile that isn't among these, as far as the newest known tells. -/
def missedOne (newest : Option MessageId) (messages : List Held) : Bool :=
  match newest, messages.getLast? with
  | some known, some last => last.id < known
  | _, _ => false

/-- A window has come. -/
def fetchWindow (st : State) (i : ℕ) (around : MessageId) (replace : Bool) (opened : ℕ)
    (again : Bool) (page : List Held) : State :=
  match st.stillOpen opened with
  | none => st.ends i
  | some stream =>
    if !replace && !holds stream.messages around then
      (st.put { stream with loading := false }).ends i
    else
      let messages := windowed stream replace page
      let landed := st.put
        { messages := messages
          atStart := (!replace && stream.atStart) || reachesBack around page
          atEnd := pageEnds around page && !missedOne st.newest messages
          loading := false
          loaded := true
          opened := opened }
      if pageEnds around page && again then loadNewer landed i false else landed.ends i

/-- What the room on screen keeps, from where to where: what is shown and a margin either
side. -/
def trimRange (stream : Stream) (first last : MessageId) : Option (ℕ × ℕ) :=
  if stream.loading || stream.messages.length ≤ trimOver then none
  else
    let shown := stream.messages.findIdx fun held => held.id = first
    let shownTo := stream.messages.findIdx fun held => held.id = last
    if stream.messages.length ≤ shown || stream.messages.length ≤ shownTo || shownTo < shown then
      none
    else
      let start := shown - keptBeyondView
      let stop := min stream.messages.length (shownTo + 1 + keptBeyondView)
      if start = 0 && stop = stream.messages.length then none else some (start, stop)

def trimHistory (st : State) (first last : MessageId) : State :=
  match st.stream with
  | none => st
  | some stream =>
    match trimRange stream first last with
    | none => st
    | some (start, stop) =>
      st.put { stream with
        messages := (stream.messages.take stop).drop start
        atStart := start = 0 && stream.atStart
        atEnd := stop = stream.messages.length && stream.atEnd }

/-- Another room is opened: all but the newest page of this one is let go of. `waiting` is
whether a send is still on its way. -/
def releaseOtherRooms (st : State) (waiting : Bool) : State :=
  match st.stream with
  | none => st
  | some stream =>
    if stream.loading || waiting then st
    else if !stream.atEnd then { st with stream := none }
    else if pageSize < stream.messages.length then
      st.put { stream with
        messages := stream.messages.drop (stream.messages.length - pageSize), atStart := false }
    else st

/-- Rewrite the stream, if there is one. -/
def State.withStream (st : State) (change : Stream → Stream) : State :=
  { st with stream := st.stream.map change }

/-- One message held, rewritten. -/
def Stream.rewrite (stream : Stream) (id : MessageId)
    (change : Messages.Message → Messages.Message) : Stream :=
  { stream with messages := stream.messages.map fun held =>
    if held.id = id then { held with message := change held.message } else held }

/-- What a deleted message is in a client that held it. -/
def tombstone (now : ℕ) (message : Messages.Message) : Messages.Message :=
  { message with body := [], deletedAt := message.deletedAt.or (some now) }

def regroup (group : ReactionGroup) (message : Messages.Message) : Messages.Message :=
  { message with reactions := withGroup message.reactions group }

/-- A frame, at some time by the client's clock. -/
def apply (st : State) (now : ℕ) : Frame → State
  | .create message =>
    let told := st.withStream fun stream =>
      if holds stream.messages message.id || stream.atEnd then
        { stream with messages := mergeMessage stream.messages message }
      else stream
    if !message.quiet && !st.blocked.contains message.authorId &&
        st.newest.all (fun held => held < message.id) then
      { told with newest := some message.id }
    else told
  | .update message =>
    st.withStream fun stream =>
      if holds stream.messages message.id then
        { stream with messages := mergeMessage stream.messages message }
      else stream
  | .delete id => st.withStream fun stream => stream.rewrite id (tombstone now)
  | .reaction id group => st.withStream fun stream => stream.rewrite id (regroup group)

/-- What was posted is answered. -/
def sendMessage (st : State) (i : ℕ) (message : Held) : State :=
  match st.stream with
  | none => st.ends i
  | some stream =>
    if !stream.atEnd then leaveWindow st i
    else (st.put { stream with messages := mergeMessage stream.messages message }).ends i

/-- What was edited, pinned, voted on or closed is answered. -/
def putChanged (st : State) (i : ℕ) (message : Held) : State :=
  (st.withStream fun stream =>
    { stream with messages := mergeMessage stream.messages message }).ends i

/-- One emoji's group with one person added or taken out. -/
def toggled (groups : List ReactionGroup) (key : ReactionKey) (userId : UserId) (on : Bool) :
    ReactionGroup :=
  let others := ((groups.find? fun one => one.key = key).elim [] ReactionGroup.userIds).filter
    fun one => one ≠ userId
  let userIds := if on then others ++ [userId] else others
  ⟨key, userIds.length, userIds⟩

/-- A reaction left or taken back, as the server is asked for it. -/
def reactRequest (userId : UserId) (key : ReactionKey) (on : Bool) : Request :=
  if on then .addReaction userId key else .removeReaction userId key

/-- A reaction shows at once. -/
def reactTo (st : State) (i : ℕ) (id : MessageId) (userId : UserId) (key : ReactionKey)
    (on : Bool) (before : ReactionGroup) : State :=
  (st.withStream fun stream => stream.rewrite id fun message =>
    regroup (toggled message.reactions key userId on) message).asks i
      (.reacts id (reactRequest userId key on) before)

namespace State

def find (st : State) (id : MessageId) : Option Kept := st.room.find? fun kept => kept.id = id

end State

/-- The newest page before a message, or of all, newest first. -/
def page (room : List Kept) (before : Option MessageId) : List Held :=
  (((room.filter fun kept => before.all fun id => kept.id < id).reverse.take pageSize).map
    Kept.told)

/-- As much either side of a message as a window takes, newest first. -/
def window (room : List Kept) (around : MessageId) : List Held :=
  (((room.filter fun kept => around < kept.id).take windowNewer).reverse ++
    (room.filter fun kept => kept.id ≤ around).reverse.take windowOlder).map Kept.told

/-- What the server reads for a request. -/
def reading (room : List Kept) : Fetch → Option (List Held)
  | .page before _ _ => some (page room before)
  | .window around _ _ _ => some (window room around)
  | .sent id => (room.find? fun kept => kept.id = id).map fun kept => [kept.told]
  | .changed id => (room.find? fun kept => kept.id = id).map fun kept => [kept.told]
  | .deleted _ => some []
  | .reacts _ _ _ => none
  | .refused _ _ => some []

/-- What a request writes is told with it. -/
def frameOf (kept : Kept) : Request → Frame
  | .edit _ => .update kept.told
  | .delete => .delete kept.id
  | .setPin _ => .update kept.told
  | .addReaction _ key => .reaction kept.id (reactionGroup kept.row.reactions key)
  | .removeReaction _ key => .reaction kept.id (reactionGroup kept.row.reactions key)
  | .vote _ _ => .update kept.told
  | .closePoll => .update kept.told

/-- A change is committed, and its frame is on its way. -/
def change (st : State) (id : MessageId) (request : Request) (now : ℕ) : State :=
  match st.find id with
  | none => st
  | some kept =>
    match request.rewrite now kept.row with
    | none => st
    | some row =>
      { st with
        room := st.room.map fun one => if one.id = id then { one with row := row } else one
        frames := st.frames ++ [frameOf { kept with row := row } request] }

/-- What the one who asked for a change is answered. -/
def answerTo (id : MessageId) : Request → Option Fetch
  | .edit _ => some (.changed id)
  | .delete => some (.deleted id)
  | .setPin _ => some (.changed id)
  | .vote _ _ => some (.changed id)
  | .closePoll => some (.changed id)
  | .addReaction _ _ => none
  | .removeReaction _ _ => none

/-- An answer has come. -/
def land (st : State) (i : ℕ) (now : ℕ) (flight : Flight) : Option State :=
  match flight.answer with
  | none => none
  | some answer =>
    match flight.fetch with
    | .page before opened _ => some (fetchPage st i before opened answer.page)
    | .window around replace opened again =>
      some (fetchWindow st i around replace opened again answer.page)
    | .sent _ => answer.page.head?.map (sendMessage st i)
    | .changed _ => answer.page.head?.map (putChanged st i)
    | .deleted id => some ((apply st now (.delete id)).ends i)
    | .reacts _ _ _ => none
    | .refused id before => some ((apply st now (.reaction id before)).ends i)

/-- An answer doesn't come: a first page is asked for again, a window to land on is given up. -/
def fail (st : State) (i : ℕ) : Fetch → State
  | .page before opened tries =>
    match st.stillOpen opened, tries with
    | none, _ => st.ends i
    | some _, tries + 1 => st.asks i (.page before opened tries)
    | some stream, 0 => (st.put { stream with loading := false }).ends i
  | .window _ replace opened _ =>
    match st.stillOpen opened with
    | none => st.ends i
    | some stream =>
      if replace then leaveWindow st i else (st.put { stream with loading := false }).ends i
  | .reacts id _ before => st.asks i (.refused id before)
  | .refused _ _ => st
  | .sent _ => st.ends i
  | .changed _ => st.ends i
  | .deleted _ => st.ends i

/-- `posts` and `changes` are what anybody's requests commit, `answer` the flight that brings
the answer when it is this client's own. A reaction that the server `serves` is one the client
takes back all the same when the answer is `lost`. -/
inductive Act
  | posts (kept : Kept) (answer : Option ℕ)
  | changes (id : MessageId) (request : Request) (now : ℕ) (answer : Option ℕ)
  | delivers (now : ℕ)
  | blocks (blocked : List UserId)
  | opens (i : ℕ)
  | opensAround (i : ℕ) (around : MessageId)
  | loadsOlder (i : ℕ)
  | loadsNewer (i : ℕ)
  | leaves (i : ℕ)
  | trims (first last : MessageId)
  | releases (waiting : Bool)
  | reacts (i : ℕ) (id : MessageId) (userId : UserId) (key : ReactionKey) (on : Bool)
      (before : ReactionGroup)
  | reads (i : ℕ)
  | serves (i : ℕ) (now : ℕ) (lost : Bool)
  | lands (i : ℕ) (now : ℕ)
  | fails (i : ℕ)
  deriving DecidableEq, Repr

/-- A number no other flight has. -/
def State.free (st : State) (i : ℕ) : Bool := (st.flights[i]?).isNone

/-- The flight of an answer to this client, if it is to it. -/
def State.awaits (st : State) (answer : Option ℕ) (fetch : Option Fetch) : State :=
  match answer, fetch with
  | some i, some fetch => st.asks i fetch
  | _, _ => st

def step (st : State) : Act → Option State
  | .posts kept answer =>
    if st.room.all (fun one => one.id < kept.id) && answer.all st.free then
      some (({ st with room := st.room ++ [kept], frames := st.frames ++ [.create kept.told] }
        : State).awaits answer (some (.sent kept.id)))
    else none
  | .changes id request now answer =>
    if answer.all st.free then
      some ((change st id request now).awaits answer (answerTo id request))
    else none
  | .delivers now =>
    match st.frames with
    | [] => none
    | frame :: frames =>
      let told := apply { st with frames := frames } now frame
      match frame with
      | .create message => some { told with delivered := told.delivered ++ [message.id] }
      | _ => some told
  | .blocks blocked => some { st with blocked := blocked }
  | .opens i => if st.free i then some (openRoom st i) else none
  | .opensAround i around => if st.free i then some (openAround st i around) else none
  | .loadsOlder i => if st.free i then some (loadOlder st i) else none
  | .loadsNewer i => if st.free i then some (loadNewer st i true) else none
  | .leaves i => if st.free i then some (leaveWindow st i) else none
  | .trims first last => some (trimHistory st first last)
  | .releases waiting => some (releaseOtherRooms st waiting)
  | .reacts i id userId key on before =>
    if st.free i && before.key = key then some (reactTo st i id userId key on before) else none
  | .reads i =>
    match st.flights[i]? with
    | some ⟨fetch, none⟩ => (reading st.room fetch).map fun page =>
      { st with flights := st.flights.insert i ⟨fetch, some ⟨page, st.room.length⟩⟩ }
    | _ => none
  | .serves i now lost =>
    match st.flights[i]? with
    | some ⟨.reacts id request before, _⟩ =>
      let served := change st id request now
      some (if lost then served.asks i (.refused id before) else served.ends i)
    | _ => none
  | .lands i now => (st.flights[i]?).bind (land st i now)
  | .fails i => (st.flights[i]?).map fun flight => fail st i flight.fetch

def machine : Machine State Act := ⟨⟨[], [], [], none, none, [], 0, ∅⟩, step⟩

end Linger.History
