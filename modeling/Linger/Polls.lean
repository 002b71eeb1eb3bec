import Mathlib.Data.List.Sort
import Linger.Posts

/-! Polls: asking one, voting in it, closing it early or when its time is up. A vote and a close are
checked in one step and written in another. -/
namespace Linger.Polls
open FiniteMap StepMachine
open Linger.Messages (Body)
open Linger.Posts (ApiError asWords closedWords)

def MIN_POLL_CHOICES : ℕ := 2
def MAX_POLL_CHOICES : ℕ := 10
def MAX_POLL_CHOICE_CHARS : ℕ := 80
def MAX_POLL_QUESTION_CHARS : ℕ := 300
def POLL_DAYS : List ℕ := [1, 3, 7, 14, 28]
def DAY_MS : ℤ := 24 * 60 * 60 * 1000

structure PollRow where
  question : Body
  multi : Bool
  closesAt : ℤ
  closedAt : Option ℤ
  closedBy : Option UserId
  deriving DecidableEq

structure ChoiceRow where
  messageId : MessageId
  position : ℕ
  text : Body
  deriving DecidableEq

structure VoteRow where
  messageId : MessageId
  position : ℕ
  userId : UserId
  votedAt : ℤ
  deriving DecidableEq

/-- A message, or the line a closing poll leaves. -/
structure MessageRow where
  roomId : RoomId
  authorId : UserId
  body : Body
  createdAt : ℤ
  deletedAt : Option ℤ
  pollClosed : Option MessageId
  deriving DecidableEq

structure PollChoice where
  text : Body
  voterIds : List UserId
  deriving DecidableEq

structure Poll where
  question : Body
  choices : List PollChoice
  multi : Bool
  closesAt : ℤ
  closedAt : Option ℤ
  closedBy : Option UserId
  deriving DecidableEq

structure PollClosed where
  pollId : MessageId
  question : Body
  winners : List Body
  deriving DecidableEq

structure Message where
  id : MessageId
  roomId : RoomId
  authorId : UserId
  body : Body
  createdAt : ℤ
  deletedAt : Option ℤ
  poll : Option Poll
  pollClosed : Option PollClosed
  deriving DecidableEq

/-- What the database holds. -/
structure Tables where
  messages : FMap MessageId MessageRow
  polls : FMap MessageId PollRow
  choices : List ChoiceRow
  votes : List VoteRow
  nextMessage : MessageId

section Reading

def choicesOf (choices : List ChoiceRow) (id : MessageId) : List ChoiceRow :=
  (choices.filter fun c => c.messageId = id).insertionSort fun c c' => c.position ≤ c'.position

def votesOf (votes : List VoteRow) (id : MessageId) : List VoteRow :=
  votes.filter fun v => v.messageId = id

/-- By when they voted, then by who. -/
def VoteRow.le (v v' : VoteRow) : Prop :=
  v.votedAt < v'.votedAt ∨ v.votedAt = v'.votedAt ∧ v.userId ≤ v'.userId

instance : DecidableRel VoteRow.le := fun _ _ => inferInstanceAs (Decidable (_ ∨ _))

/-- One more vote, with the choice it names by its place. -/
def addVoter (choices : List PollChoice) (vote : VoteRow) : List PollChoice :=
  choices.modify vote.position fun choice =>
    { choice with voterIds := choice.voterIds ++ [vote.userId] }

/-- A poll, whole: three reads, which need not be of one moment. -/
def load (polls : FMap MessageId PollRow) (choices : List ChoiceRow) (votes : List VoteRow)
    (id : MessageId) : Option Poll :=
  (polls[id]? : Option PollRow).map fun row =>
    { question := row.question
      choices := ((votesOf votes id).insertionSort VoteRow.le).foldl addVoter
        ((choicesOf choices id).map fun c => ⟨c.text, []⟩)
      multi := row.multi, closesAt := row.closesAt, closedAt := row.closedAt, closedBy :=
        row.closedBy }

/-- The choice, or the choices tied, with the most votes; none when nobody voted. -/
def winnersOf (poll : Poll) : List Body :=
  let most := (poll.choices.map fun choice => choice.voterIds.length).foldl max 0
  if most = 0 then []
  else (poll.choices.filter fun choice => choice.voterIds.length = most).map PollChoice.text

/-- The same, counted inside a transaction. -/
def winners (choices : List ChoiceRow) (votes : List VoteRow) (id : MessageId) : List Body :=
  let counted := (choicesOf choices id).map fun c =>
    (c.text, (votes.filter fun v => v.messageId = c.messageId ∧ v.position = c.position).length)
  let most := (counted.map Prod.snd).foldl max 0
  if most = 0 then [] else (counted.filter fun e => e.2 = most).map Prod.fst

/-- A message with the poll it carries, and what a closed line says of the poll it is about. -/
def hydrate (asked ended : MessageId → Option Poll) (message : Message) : Message :=
  { message with
    poll := (asked message.id).or message.poll
    pollClosed := message.pollClosed.map fun line =>
      match ended line.pollId with
      | some poll => { line with question := poll.question, winners := winnersOf poll }
      | none => line }

def rowToMessage (id : MessageId) (row : MessageRow) : Message :=
  { id := id, roomId := row.roomId, authorId := row.authorId, body := row.body,
    createdAt := row.createdAt
    deletedAt := row.deletedAt, poll := none, pollClosed :=
      row.pollClosed.map fun poll => ⟨poll, [], []⟩ }

def Tables.load (db : Tables) (id : MessageId) : Option Poll :=
  Polls.load db.polls db.choices db.votes id

def Tables.byId (db : Tables) (id : MessageId) : Option Message :=
  (db.messages[id]? : Option MessageRow).map fun row =>
    hydrate db.load db.load (rowToMessage id row)

end Reading

section Writing

/-- Whose choices a poll's words are checked by: what Unicode says of direction marks, blanks and
case. -/
structure Text where
  withoutDirectionOverrides : Body → Body
  trim : Body → Body
  toLowercase : Body → Body

structure CreatePollRequest where
  question : Body
  choices : List Body
  multi : Bool
  closesInDays : ℕ

/-- A poll's words, trimmed, after the rules every one of them follows. -/
def Text.checked (text : Text) (req : CreatePollRequest) : Except ApiError (Body × List Body) :=
  let question := text.trim (text.withoutDirectionOverrides req.question)
  let choices := req.choices.map fun choice => text.trim (text.withoutDirectionOverrides choice)
  if question.isEmpty then .error ⟨.validation, "A poll needs a question."⟩
  else if MAX_POLL_QUESTION_CHARS < question.length then
    .error ⟨.validation, "A poll's question is at most 300 characters."⟩
  else if choices.length < MIN_POLL_CHOICES ∨ MAX_POLL_CHOICES < choices.length then
    .error ⟨.validation, "A poll has 2 to 10 choices."⟩
  else if choices.any List.isEmpty then .error ⟨.validation, "A choice can't be empty."⟩
  else if choices.any fun choice => decide (MAX_POLL_CHOICE_CHARS < choice.length) then
    .error ⟨.validation, "A choice is at most 80 characters."⟩
  else if ¬ (choices.map text.toLowercase).Nodup then
    .error ⟨.validation, "Each choice can only be there once."⟩
  else if req.closesInDays ∉ POLL_DAYS then
    .error ⟨.validation, "A poll closes after 1, 3, 7, 14 or 28 days."⟩
  else .ok (question, choices)

namespace Tables
variable (db : Tables)

/-- A poll's message, the poll and its choices, in one transaction. -/
def ask (userId : UserId) (roomId : RoomId) (question : Body) (choices : List Body) (multi : Bool)
    (closesInDays : ℕ) (at' : ℤ) : Tables :=
  let id := db.nextMessage
  { db with
    messages := db.messages.insert id
      { roomId := roomId, authorId := userId, body := asWords question choices, createdAt := at'
        deletedAt := none, pollClosed := none }
    polls := db.polls.insert id
      { question := question, multi := multi, closesAt := at' + closesInDays * DAY_MS,
        closedAt := none
        closedBy := none }
    choices := db.choices ++ choices.mapIdx fun position text => ⟨id, position, text⟩
    nextMessage := id + 1 }

/-- A vote in place of the one before, in one transaction. -/
def vote (userId : UserId) (id : MessageId) (picked : List ℕ) (at' : ℤ) : Tables :=
  { db with
    votes := (db.votes.filter fun v => ¬ (v.messageId = id ∧ v.userId = userId)) ++
      (picked.insertionSort (· ≤ ·)).map fun position => ⟨id, position, userId, at'⟩ }

/-- The poll a close finds open, and not taken back. -/
def open? (id : MessageId) : Option (PollRow × MessageRow) :=
  match (db.polls[id]? : Option PollRow), (db.messages[id]? : Option MessageRow) with
  | some poll, some message =>
    if poll.closedAt = none ∧ message.deletedAt = none then some (poll, message) else none
  | _, _ => none

/-- The poll closed and its closed line written, in one transaction. -/
def close (id : MessageId) (by' : Option UserId) (poll : PollRow) (message : MessageRow) (at' : ℤ) :
    Tables :=
  { db with
    polls := db.polls.insert id { poll with closedAt := some at', closedBy := by' }
    messages := db.messages.insert db.nextMessage
      { roomId := message.roomId, authorId := message.authorId
        body := closedWords poll.question (winners db.choices db.votes id), createdAt := at'
        deletedAt := none, pollClosed := some id }
    nextMessage := db.nextMessage + 1 }

def tombstone (at' : ℤ) (message : MessageRow) : MessageRow :=
  { message with body := [], deletedAt := some at' }

def delete (id : MessageId) (at' : ℤ) : Tables :=
  { db with messages := db.messages.alter id fun message => message.map (tombstone at') }

/-- A deleted account's messages, and its votes in polls still open. -/
def erase (userId : UserId) (at' : ℤ) : Tables :=
  { db with
    messages := db.messages.map fun _ message =>
      if message.authorId = userId ∧ message.deletedAt = none then tombstone at' message
        else message
    votes := db.votes.filter fun v => ¬ (v.userId = userId ∧
      (db.polls[v.messageId]? : Option PollRow).any fun poll => poll.closedAt = none) }

end Tables

end Writing

section Machine

inductive Answer
  | message (message : Message)
  | refused (error : ApiError)
  | rateLimited
  deriving DecidableEq

inductive ServerEvent
  | messageCreate (message : Message)
  | messageUpdate (message : Message)
  deriving DecidableEq

/-- Where a request, or a pass of the sweeper, stands. `due` is what a pass has still to close. -/
inductive Task
  | voting (userId : UserId) (id : MessageId) (picked : List ℕ)
  | voted (id : MessageId)
  | closing (id : MessageId) (by' : Option UserId) (due : List MessageId)
  | closed (id line : MessageId) (by' : Option UserId) (due : List MessageId)
  | answering (id : MessageId)
  deriving DecidableEq

structure Server where
  db : Tables
  tasks : FMap ℕ Task
  published : List ServerEvent
  answers : List (ℕ × Answer)

/-- A step somebody takes. A request's number is its own; `limited` and `unseen` are what the rate
limit and the room's visibility make of it, `refusal` what the asker's standing, the room and the
ask's key do. -/
inductive Event
  | ask (i : ℕ) (userId : UserId) (roomId : RoomId) (req : CreatePollRequest)
      (refusal : Option ApiError)
      (now : ℤ)
  | vote (i : ℕ) (userId : UserId) (id : MessageId) (choices : List ℕ) (limited : Bool)
      (unseen : Option ApiError) (now : ℤ)
  | close (i : ℕ) (userId : UserId) (id : MessageId) (unseen : Option ApiError) (now : ℤ)
  | closeDue (i : ℕ) (now : ℤ)
  | commit (i : ℕ) (now : ℤ)
  | tell (i : ℕ)
  | drop (i : ℕ)
  | delete (id : MessageId) (now : ℤ)
  | erase (userId : UserId) (now : ℤ)

/-- A poll somebody can see, open, and not taken back. -/
def openPoll (db : Tables) (id : MessageId) (unseen : Option ApiError) (now : ℤ) :
    Except ApiError (Message × Poll) :=
  match db.byId id with
  | none => .error ⟨.notFound, "No such message."⟩
  | some message =>
    match unseen with
    | some error => .error error
    | none =>
      if message.deletedAt ≠ none then .error ⟨.notFound, "That message is gone."⟩
      else
        match message.poll with
        | none => .error ⟨.validation, "That message isn't a poll."⟩
        | some poll =>
          if poll.closedAt ≠ none ∨ poll.closesAt ≤ now then
            .error ⟨.validation, "That poll has closed."⟩
          else .ok (message, poll)

def checkVote (db : Tables) (id : MessageId) (choices : List ℕ) (unseen : Option ApiError)
    (now : ℤ) :
    Except ApiError Unit :=
  match openPoll db id unseen now with
  | .error error => .error error
  | .ok (_, poll) =>
    if ¬ choices.Nodup then .error ⟨.validation, "Each choice can only be picked once."⟩
    else if 1 < choices.length ∧ ¬ poll.multi then
      .error ⟨.validation, "This poll takes one choice."⟩
    else if choices.any fun at' => decide (poll.choices.length ≤ at') then
      .error ⟨.validation, "That poll has no such choice."⟩
    else .ok ()

def checkClose (db : Tables) (userId : UserId) (id : MessageId) (unseen : Option ApiError)
    (now : ℤ) :
    Except ApiError Unit :=
  match openPoll db id unseen now with
  | .error error => .error error
  | .ok (message, _) =>
    if message.authorId ≠ userId then .error ⟨.forbidden, "Only whoever asked can close a poll."⟩
    else .ok ()

/-- The open polls whose time is up, the one due longest first. -/
def duePolls (db : Tables) (now : ℤ) : List MessageId :=
  ((db.polls.toList.filter fun e => e.2.closedAt = none ∧ e.2.closesAt ≤ now ∧
    (db.messages[e.1]? : Option MessageRow).any fun message => message.deletedAt =
      none).insertionSort
      fun e e' => e.2.closesAt ≤ e'.2.closesAt).map Prod.fst

/-- What comes after a close: its answer, or the pass's next poll. -/
def Task.next (id : MessageId) (by' : Option UserId) (due : List MessageId) : Option Task :=
  match by', due with
  | some _, _ => some (.answering id)
  | none, [] => none
  | none, id' :: due => some (.closing id' none due)

namespace Server
variable (st : Server)

def goOn (i : ℕ) (task : Option Task) : Server :=
  { st with tasks := st.tasks.alter i fun _ => task }

def begin (i : ℕ) (task : Task) : Option Server :=
  if (st.tasks[i]? : Option Task) = none then some (st.goOn i task) else none

def answer (i : ℕ) (answer : Answer) : Server := { st with answers := st.answers ++ [(i, answer)] }

/-- A message as it stands now, to everybody in its room. -/
def publish (create : Bool) (id : MessageId) : Server :=
  { st with
    published := st.published ++ ((st.db.byId id).map fun message =>
      if create then .messageCreate message else .messageUpdate message).toList }

def respond (i : ℕ) (id : MessageId) : Server :=
  match st.db.byId id with
  | some message => st.answer i (.message message)
  | none => st.answer i (.refused ⟨.notFound, "No such message."⟩)

def commit (i : ℕ) (now : ℤ) : Option Server :=
  match (st.tasks[i]? : Option Task) with
  | some (.voting userId id picked) =>
    some (({ st with db := st.db.vote userId id picked now } : Server).goOn i (some (.voted id)))
  | some (.closing id by' due) =>
    match st.db.open? id with
    | some (poll, message) =>
      some (({ st with db := st.db.close id by' poll message now } : Server).goOn i
        (some (.closed id st.db.nextMessage by' due)))
    | none => some (st.goOn i (Task.next id by' due))
  | _ => none

def tell (i : ℕ) : Option Server :=
  match (st.tasks[i]? : Option Task) with
  | some (.voted id) => some (((st.publish false id).respond i id).goOn i none)
  | some (.closed id line by' due) =>
    some (((st.publish false id).publish true line).goOn i (Task.next id by' due))
  | some (.answering id) => some ((st.respond i id).goOn i none)
  | _ => none

end Server

def advance (text : Text) (st : Server) : Event → Option Server
  | .ask i userId roomId req refusal now =>
    match refusal, text.checked req with
    | some error, _ | none, .error error => some (st.answer i (.refused error))
    | none, .ok (question, choices) =>
      let db := st.db.ask userId roomId question choices req.multi req.closesInDays now
      some ((({ st with db := db } : Server).publish true st.db.nextMessage).respond i
        st.db.nextMessage)
  | .vote i userId id choices limited unseen now =>
    if limited then some (st.answer i .rateLimited)
    else
      match checkVote st.db id choices unseen now with
      | .error error => some (st.answer i (.refused error))
      | .ok () => st.begin i (.voting userId id choices)
  | .close i userId id unseen now =>
    match checkClose st.db userId id unseen now with
    | .error error => some (st.answer i (.refused error))
    | .ok () => st.begin i (.closing id (some userId) [])
  | .closeDue i now =>
    match duePolls st.db now with
    | [] => some st
    | id :: due => st.begin i (.closing id none due)
  | .commit i now => st.commit i now
  | .tell i => st.tell i
  | .drop i => some (st.goOn i none)
  | .delete id now => some { st with db := st.db.delete id now }
  | .erase userId now => some { st with db := st.db.erase userId now }

def machine (text : Text) : Machine Server Event where
  start :=
    { db := { messages := ∅, polls := ∅, choices := [], votes := [], nextMessage := 0 }
      tasks := ∅, published := [], answers := [] }
  step := advance text

end Machine
end Linger.Polls
