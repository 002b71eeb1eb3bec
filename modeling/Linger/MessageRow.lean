import Mathlib.Data.List.Sort
import Linger.TaskPool
import Linger.StepMachine
import Linger.MessageLinks

/-! One message while people change it: each request checks it, writes, reads it back and
tells the room, and between any two of these others may do theirs. -/
namespace Linger.Messages
open FiniteMap StepMachine

/-- An emoji, or the id of one of the server's own. -/
abbrev ReactionKey := ℕ

/-- The most different reactions one message holds. -/
def maxReactionsPerMessage : ℕ := 6

structure Reaction where
  userId : UserId
  key : ReactionKey
  createdAt : ℕ
  deriving DecidableEq, Repr

structure Vote where
  position : ℕ
  userId : UserId
  votedAt : ℕ
  deriving DecidableEq, Repr

structure PollRow where
  choices : ℕ
  closedAt : Option ℕ
  votes : List Vote
  deriving DecidableEq, Repr

/-- A message as the database has it, its reactions and votes in the order they are
read in. -/
structure Row where
  body : Body
  editedAt : Option ℕ
  deletedAt : Option ℕ
  pinnedAt : Option ℕ
  links : List (List Char)
  reactions : List Reaction
  poll : Option PollRow
  deriving DecidableEq, Repr

structure ReactionGroup where
  key : ReactionKey
  count : ℕ
  userIds : List UserId
  deriving DecidableEq, Repr

structure Poll where
  closedAt : Option ℕ
  voterIds : List (List UserId)
  deriving DecidableEq, Repr

/-- A message on the wire. -/
structure Message where
  body : Body
  editedAt : Option ℕ
  deletedAt : Option ℕ
  pinnedAt : Option ℕ
  reactions : List ReactionGroup
  poll : Option Poll
  deriving DecidableEq, Repr

/-- The row alone: reactions and poll are read after it. -/
def rowToMessage (row : Row) : Message :=
  { body := row.body, editedAt := row.editedAt, deletedAt := row.deletedAt
    pinnedAt := row.pinnedAt, reactions := [], poll := none }

/-- One more of a message's reactions, in its emoji's group. -/
def addToGroups (groups : List ReactionGroup) (reaction : Reaction) : List ReactionGroup :=
  if groups.any fun group => group.key = reaction.key then
    groups.map fun group =>
      if group.key = reaction.key then
        { group with count := group.count + 1, userIds := group.userIds ++ [reaction.userId] }
      else group
  else groups ++ [⟨reaction.key, 1, [reaction.userId]⟩]

/-- One group per emoji, in the order each was first left. -/
def hydrateReactions (reactions : List Reaction) : List ReactionGroup :=
  reactions.foldl addToGroups []

/-- One emoji's reactions. -/
def reactionGroup (reactions : List Reaction) (key : ReactionKey) : ReactionGroup :=
  let userIds := (reactions.filter fun r => r.key = key).map Reaction.userId
  ⟨key, userIds.length, userIds⟩

def hydratePoll (poll : PollRow) : Poll :=
  { closedAt := poll.closedAt
    voterIds := (List.range poll.choices).map fun position =>
      (poll.votes.filter fun vote => vote.position = position).map Vote.userId }

/-- A message whose emoji has these reactions now, in a client that holds it. -/
def withGroup (groups : List ReactionGroup) (group : ReactionGroup) : List ReactionGroup :=
  if group.count = 0 then groups.filter fun one => one.key ≠ group.key
  else if groups.any fun one => one.key = group.key then
    groups.replaceF fun one => if one.key = group.key then some group else none
  else groups ++ [group]

inductive Request
  | edit (body : Body)
  | delete
  | setPin (pinned : Bool)
  | addReaction (userId : UserId) (key : ReactionKey)
  | removeReaction (userId : UserId) (key : ReactionKey)
  | vote (userId : UserId) (choices : List ℕ)
  | closePoll
  deriving DecidableEq, Repr

/-- Where a request stands: it goes on with this next. `created` is of a message that is
being told for the first time. -/
inductive Task
  | checks (request : Request)
  | writes (request : Request)
  | records (body : Body)
  | readsRow (created : Bool)
  | readsReactions (created : Bool) (message : Message)
  | readsPoll (created : Bool) (message : Message)
  | tells (created : Bool) (message : Message)
  | tellsDelete
  | readsGroup (key : ReactionKey)
  | tellsGroup (group : ReactionGroup)
  deriving DecidableEq, Repr

/-- `held` is the message by the frames about it, in the order they were published, and
`dropped` whether a delete was ever written. -/
structure Server where
  row : Option Row
  held : Option Message
  tasks : FMap ℕ Task
  dropped : Bool

namespace Server

def goOn (st : Server) (i : ℕ) (task : Task) : Server :=
  { st with tasks := st.tasks.insert i task }

def ends (st : Server) (i : ℕ) : Server := { st with tasks := st.tasks.erase i }

def writes (st : Server) (i : ℕ) (row : Row) (task : Task) : Server :=
  ({ st with row := some row }).goOn i task

end Server

def PollRow.isOpen (poll : Option PollRow) : Bool := poll.any fun poll => poll.closedAt.isNone

/-- What a request finds out about the message before it writes. -/
def Request.passes (row : Row) : Request → Bool
  | .edit _ => row.deletedAt.isNone && row.poll.isNone
  | .delete => row.deletedAt.isNone
  | .setPin _ => row.deletedAt.isNone
  | .addReaction _ _ => row.deletedAt.isNone
  | .removeReaction _ _ => true
  | .vote _ _ => row.deletedAt.isNone && PollRow.isOpen row.poll
  | .closePoll => row.deletedAt.isNone && PollRow.isOpen row.poll

/-- In the order a reading of them gives, which is the order they were left in. -/
def insertReaction (reactions : List Reaction) (reaction : Reaction) : List Reaction :=
  reactions.takeWhile (fun r => r.createdAt ≤ reaction.createdAt) ++
    reaction :: reactions.dropWhile fun r => r.createdAt ≤ reaction.createdAt

/-- The place of a vote among them: by when, and then by whom. -/
def insertVote (votes : List Vote) (vote : Vote) : List Vote :=
  let before (v : Vote) : Bool :=
    v.votedAt < vote.votedAt || (v.votedAt = vote.votedAt && v.userId ≤ vote.userId)
  votes.takeWhile before ++ vote :: votes.dropWhile before

/-- Somebody's reaction is written unless it is there, or the message is full of others. -/
def addsReaction (reactions : List Reaction) (userId : UserId) (key : ReactionKey) : Bool :=
  !(reactions.any fun r => r.userId = userId && r.key = key) &&
    ((reactions.any fun r => r.key = key) ||
      (reactions.map Reaction.key).dedup.length < maxReactionsPerMessage)

/-- What a request writes, in one transaction, and what it does then; nothing written is
nothing to tell. -/
def write (st : Server) (i : ℕ) (now : ℕ) (row : Row) : Request → Server
  | .edit body =>
    st.writes i { row with body := body, editedAt := some now } (.records body)
  | .delete =>
    ({ st with dropped := true }).writes i
      { row with body := [], deletedAt := some now, pinnedAt := none } .tellsDelete
  | .setPin pinned =>
    st.writes i { row with pinnedAt := if pinned then some now else none } (.readsRow false)
  | .addReaction userId key =>
    if addsReaction row.reactions userId key then
      st.writes i { row with reactions := insertReaction row.reactions ⟨userId, key, now⟩ }
        (.readsGroup key)
    else st.ends i
  | .removeReaction userId key =>
    if row.reactions.any fun r => r.userId = userId && r.key = key then
      st.writes i { row with
        reactions := row.reactions.filter fun r => !(r.userId = userId && r.key = key) }
        (.readsGroup key)
    else st.ends i
  | .vote userId choices =>
    st.writes i { row with poll := row.poll.map fun poll =>
      { poll with votes := ((choices.insertionSort (· ≤ ·)).foldl
          (fun votes position => insertVote votes ⟨position, userId, now⟩)
          (poll.votes.filter fun vote => vote.userId ≠ userId)) } } (.readsRow false)
  | .closePoll =>
    if row.deletedAt.isNone && PollRow.isOpen row.poll then
      st.writes i { row with
        poll := row.poll.map fun poll => { poll with closedAt := some now } } (.readsRow false)
    else st.ends i

/-- What a client makes of a message it is told: an update of one it doesn't hold is
dropped. -/
def Server.hears (st : Server) (created : Bool) (message : Message) : Server :=
  if created || st.held.isSome then { st with held := some message } else st

/-- What a request does before it next lets anybody else go first. `allowed` is what else
it checks, about whoever asks and what they ask for. -/
def advance (parse : List Char → Option Url) (st : Server) (i : ℕ) (allowed : Bool) (now : ℕ)
    (row : Row) : Task → Server
  | .checks request =>
    if request.passes row && allowed then st.goOn i (.writes request) else st.ends i
  | .writes request => write st i now row request
  | .records body => st.writes i { row with links := extract parse body } (.readsRow false)
  | .readsRow created => st.goOn i (.readsReactions created (rowToMessage row))
  | .readsReactions created message =>
    st.goOn i (.readsPoll created { message with reactions := hydrateReactions row.reactions })
  | .readsPoll created message =>
    st.goOn i (.tells created { message with poll := row.poll.map hydratePoll })
  | .tells created message => (st.hears created message).ends i
  | .tellsDelete =>
    ({ st with held := st.held.map fun held : Message =>
      { held with body := [], deletedAt := held.deletedAt.or (some now) } }).ends i
  | .readsGroup key => st.goOn i (.tellsGroup (reactionGroup row.reactions key))
  | .tellsGroup group =>
    ({ st with held := st.held.map fun held : Message =>
      { held with reactions := withGroup held.reactions group } }).ends i

/-- `fails` is a request that errors or whose caller hangs up between two of its statements: what it
was to do next is never done. Links are recorded one statement each, so an edit may leave the first
few of them, in place of the ones before it. -/
inductive Act
  | create (i : ℕ) (body : Body)
  | createPoll (i : ℕ) (body : Body) (choices : ℕ)
  | request (i : ℕ) (request : Request)
  | step (i : ℕ) (allowed : Bool) (now : ℕ)
  | fails (i : ℕ) (recorded : Option ℕ)
  deriving DecidableEq, Repr

/-- One more task, under a number no other has. -/
def Server.begin (st : Server) (i : ℕ) (task : Task) : Option Server :=
  if (st.tasks[i]?).isSome then none else some (st.goOn i task)

/-- The links there are once a request has failed: the first few of its own, or those there were. -/
def Task.leaves (parse : List Char → Option Url) (recorded : Option ℕ) (row : Row) :
    Task → List (List Char)
  | .records body => (recorded.map fun n => (extract parse body).take n).getD row.links
  | _ => row.links

def Server.cut (parse : List Char → Option Url) (st : Server) (recorded : Option ℕ) (task : Task) :
    Server :=
  { st with
    row := st.row.map fun row : Row => { row with links := task.leaves parse recorded row } }

/-- A post's words, its links with them, and nothing yet on it. -/
def Row.new (body : Body) (links : List (List Char)) (poll : Option PollRow) : Row :=
  { body := body, editedAt := none, deletedAt := none, pinnedAt := none
    links := links, reactions := [], poll := poll }

def step (parse : List Char → Option Url) (st : Server) : Act → Option Server
  | .create i body =>
    if st.row.isSome then none
    else ({ st with row := some (Row.new body (extract parse body) none) }).begin i (.readsRow true)
  | .createPoll i body choices =>
    if st.row.isSome then none
    else ({ st with row := some (Row.new body [] (some ⟨choices, none, []⟩)) }).begin i
      (.readsRow true)
  | .request i request => st.begin i (.checks request)
  | .step i allowed now =>
    (st.tasks[i]?).map fun task =>
      match st.row with
      | none => st.ends i
      | some row => advance parse st i allowed now row task
  | .fails i recorded => (st.tasks[i]?).map fun task => (st.cut parse recorded task).ends i

def machine (parse : List Char → Option Url) : Machine Server Act :=
  ⟨⟨none, none, ∅, false⟩, step parse⟩

namespace Server
variable {st : Server} {i : ℕ} {task task' : Task} {p : Task → Bool}

/-- Some request stands at such a place. -/
def has (st : Server) (p : Task → Bool) : Prop := TaskPool.Has st.tasks p

/-- Some request but this one does. -/
def others (st : Server) (i : ℕ) (p : Task → Bool) : Prop := TaskPool.Others st.tasks i p

instance (st : Server) (i : ℕ) (p : Task → Bool) : Decidable (st.others i p) :=
  inferInstanceAs (Decidable (TaskPool.Others st.tasks i p))

theorem has_iff : st.has p ↔ ∃ (j : ℕ) (task : Task), st.tasks[j]? = some task ∧ p task = true :=
  TaskPool.has_iff

theorem others_iff : st.others i p ↔
    ∃ (j : ℕ) (task : Task), j ≠ i ∧ st.tasks[j]? = some task ∧ p task = true :=
  TaskPool.others_iff

theorem has_of_others (h : st.others i p) : st.has p := TaskPool.has_of_others h

theorem has_split (hi : st.tasks[i]? = some task) (h : st.has p) : p task = true ∨ st.others i p :=
  TaskPool.has_split hi h

theorem has_goOn : (st.goOn i task).has p ↔ p task = true ∨ st.others i p := TaskPool.has_insert

theorem has_ends : (st.ends i).has p ↔ st.others i p := Iff.rfl

theorem has_begin (hi : st.tasks[i]? = none) (h : st.has p) : (st.goOn i task).has p :=
  TaskPool.has_begin hi h

/-- A request that goes on to stand at such a place where it stood before, or to another
such. -/
theorem has_goOn_of (hi : st.tasks[i]? = some task) (h : st.has p)
    (htask : p task = true → p task' = true) : (st.goOn i task').has p :=
  has_goOn.mpr ((has_split hi h).imp htask id)

end Server

end Linger.Messages
