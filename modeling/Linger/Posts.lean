import Mathlib.Data.List.Pairwise
import Linger.TaskPool
import Linger.StepMachine
import Linger.MessageLinks

/-! Posting: what a request asks before it waits for the one writer, what it writes there in
one transaction, and what it is answered. Between any two of its steps others take theirs,
and at any point it or its answer can be lost. -/
namespace Linger.Posts
open FiniteMap StepMachine
open Linger.Messages (Body)

abbrev AttachmentId := ℕ
abbrev Nonce := String

/-- How long a key is remembered, in milliseconds: a week. -/
def nonceKeptMs : ℕ := 7 * 24 * 60 * 60 * 1000

def maxMessageChars : ℕ := 8000
def maxAttachmentsPerMessage : ℕ := 10

inductive ErrorCode
  | forbidden
  | notFound
  | validation
  | conflict
  deriving DecidableEq, Repr

structure ApiError where
  code : ErrorCode
  message : String
  deriving DecidableEq, Repr

inductive Answer
  | message (id : MessageId)
  | refused (error : ApiError)
  deriving DecidableEq, Repr

/-- What Unicode's tables say of a character. -/
structure Unicode where
  isSpace : Char → Bool
  isSeen : Char → Bool

def Unicode.trim (u : Unicode) (s : Body) : Body :=
  ((s.dropWhile u.isSpace).reverse.dropWhile u.isSpace).reverse

def Unicode.caption (u : Unicode) (s : Body) : Except ApiError Body :=
  let trimmed := u.trim s
  if trimmed.length > maxMessageChars then
    .error ⟨.validation, "That's too long for one message."⟩
  else .ok trimmed

def Unicode.messageBody (u : Unicode) (s : Body) : Except ApiError Body :=
  match u.caption s with
  | .error error => .error error
  | .ok trimmed =>
    if trimmed.any u.isSeen then .ok trimmed else .error ⟨.validation, "Say something."⟩

/-- What is posted. A poll's `checked` is what the checks on its words made of them. -/
inductive Words
  | message (body : Body) (attachmentIds : List AttachmentId) (replyTo : Option MessageId)
  | poll (checked : Except ApiError (Body × List Body))

structure Post where
  authorId : UserId
  roomId : RoomId
  nonce : Option Nonce
  words : Words

def Post.attachmentIds (post : Post) : List AttachmentId :=
  match post.words with
  | .message _ attachmentIds _ => attachmentIds
  | .poll _ => []

structure Attachment where
  uploaderId : UserId
  complete : Bool
  messageId : Option MessageId
  isPicture : Bool
  deriving DecidableEq, Repr

/-- A key as it is remembered. -/
structure Key where
  authorId : UserId
  nonce : Nonce
  messageId : MessageId
  createdAt : ℕ
  deriving DecidableEq, Repr

/-- A message as it was saved, with the key and the uploads it was posted with. -/
structure Saved where
  id : MessageId
  roomId : RoomId
  authorId : UserId
  nonce : Option Nonce
  body : Body
  attachmentIds : List AttachmentId
  createdAt : ℕ
  deriving DecidableEq, Repr

/-- A read marker. `seen` is how many messages there were when it was last moved. -/
structure Marker where
  userId : UserId
  roomId : RoomId
  lastReadId : MessageId
  seen : ℕ
  deriving DecidableEq, Repr

def posted (nonces : List Key) (authorId : UserId) (nonce : Nonce) (now : ℕ) : Option MessageId :=
  (nonces.find? fun key =>
    key.authorId = authorId && key.nonce = nonce && now ≤ key.createdAt + nonceKeptMs).map
      Key.messageId

def forgetOld (nonces : List Key) (now : ℕ) : List Key :=
  nonces.filter fun key => now ≤ key.createdAt + nonceKeptMs

/-- What a post asks inside its own transaction, about the key it carries. -/
def Post.checkIn (post : Post) (nonces : List Key) (now : ℕ) : Option MessageId :=
  post.nonce.bind fun nonce => posted (forgetOld nonces now) post.authorId nonce now

def Post.remember (post : Post) (nonces : List Key) (id : MessageId) (now : ℕ) : List Key :=
  match post.nonce with
  | none => nonces
  | some nonce => forgetOld nonces now ++ [⟨post.authorId, nonce, id, now⟩]

/-- The upload goes onto a message, unless it is on one. -/
def attach (id : MessageId) (attachment : Attachment) : Attachment :=
  if attachment.messageId.isNone then { attachment with messageId := some id } else attachment

def advanceReadMarker (markers : List Marker) (userId : UserId) (roomId : RoomId)
    (messageId : MessageId) (seen : ℕ) : List Marker :=
  if markers.any fun marker => marker.userId = userId && marker.roomId = roomId then
    markers.map fun marker =>
      if marker.userId = userId && marker.roomId = roomId && marker.lastReadId < messageId then
        { marker with lastReadId := messageId, seen := seen }
      else marker
  else markers ++ [⟨userId, roomId, messageId, seen⟩]

/-- One upload of those a message names: there, this person's, finished and free. -/
def checkAttachment (author : UserId) (record : Option Attachment) : Except ApiError Unit :=
  match record with
  | none => .error ⟨.notFound, "No such upload."⟩
  | some record =>
    if record.uploaderId ≠ author then .error ⟨.forbidden, "That upload isn't yours."⟩
    else if !record.complete then .error ⟨.validation, "That upload hasn't finished."⟩
    else if record.messageId.isSome then
      .error ⟨.conflict, "That file is already on a message."⟩
    else if record.isPicture then
      .error ⟨.conflict, "That picture is one of the server's emoji."⟩
    else .ok ()

/-- A poll as words. -/
def asWords (question : Body) (choices : List Body) : Body :=
  "**Poll:** ".toList ++ question ++ ['\n'] ++
    choices.flatMap fun choice => "\n- ".toList ++ choice

def closedResult : List Body → Body
  | [] => "Nobody voted.".toList
  | [one] => one ++ " won.".toList
  | [first, second] => first ++ " and ".toList ++ second ++ " tied.".toList
  | winners =>
    List.intercalate ", ".toList winners.dropLast ++ " and ".toList ++ winners.getLastD [] ++
      " tied.".toList

def closedWords (question : Body) (winners : List Body) : Body :=
  "Poll closed: “".toList ++ question ++ "” ".toList ++ closedResult winners

/-- Where a post stands that has asked about its key: it goes on with this next. -/
inductive Place
  | checks (seen left : List AttachmentId)
  | repliesTo (body : Body) (parent : MessageId)
  | mints (body : Body)
  | waits (body : Body) (id : MessageId) (now : ℕ)
  | finds (id : MessageId)
  | answers (id : MessageId)
  deriving DecidableEq, Repr

/-- A request under way: `archived` is what its room was when it came, and `since` how many
messages there were when it asked about its key. -/
inductive Task
  | asks (post : Post) (archived : Bool)
  | posts (post : Post) (since : ℕ) (place : Place)
  | reads (userId : UserId) (roomId : RoomId) (id : MessageId)
  | marks (userId : UserId) (roomId : RoomId) (id : MessageId)

/-- What a post was answered. -/
structure Outcome where
  post : Post
  since : ℕ
  answer : Answer

/-- `messages` is every message in the order they were committed, `minted` the next id. -/
structure Server where
  messages : List Saved
  nonces : List Key
  attachments : FMap AttachmentId Attachment
  markers : List Marker
  minted : MessageId
  now : ℕ
  tasks : FMap ℕ Task
  outcomes : List Outcome

namespace Server

def goOn (st : Server) (i : ℕ) (task : Task) : Server :=
  { st with tasks := st.tasks.insert i task }

def ends (st : Server) (i : ℕ) : Server := { st with tasks := st.tasks.erase i }

def answered (st : Server) (i : ℕ) (post : Post) (since : ℕ) (answer : Answer) : Server :=
  ({ st with outcomes := st.outcomes ++ [⟨post, since, answer⟩] } : Server).ends i

def find (st : Server) (id : MessageId) : Option Saved :=
  st.messages.find? fun message => message.id = id

end Server

/-- The first a post asks: whether it was saved already. Then what needs no more reading. -/
def ask (st : Server) (i : ℕ) (post : Post) (archived : Bool) : Server :=
  let since := st.messages.length
  match post.nonce.bind fun nonce => posted st.nonces post.authorId nonce st.now with
  | some id => st.goOn i (.posts post since (.finds id))
  | none =>
    if archived then st.answered i post since (.refused ⟨.validation, "That room is archived."⟩)
    else match post.words with
    | .message _ attachmentIds _ =>
      if attachmentIds.length > maxAttachmentsPerMessage then
        st.answered i post since
          (.refused ⟨.validation,
            s!"One message carries at most {maxAttachmentsPerMessage} files."⟩)
      else st.goOn i (.posts post since (.checks [] attachmentIds))
    | .poll (.error error) => st.answered i post since (.refused error)
    | .poll (.ok (question, choices)) =>
      st.goOn i (.posts post since (.mints (asWords question choices)))

/-- One more upload is looked at, and after the last one the words are. -/
def check (u : Unicode) (st : Server) (i : ℕ) (post : Post) (since : ℕ)
    (seen left : List AttachmentId) : Server :=
  match left with
  | id :: left =>
    if seen.contains id then
      st.answered i post since (.refused ⟨.validation, "That file is on the message twice."⟩)
    else match checkAttachment post.authorId st.attachments[id]? with
    | .error error => st.answered i post since (.refused error)
    | .ok _ => st.goOn i (.posts post since (.checks (seen ++ [id]) left))
  | [] =>
    match post.words with
    | .poll _ => st.ends i
    | .message body attachmentIds replyTo =>
      match if attachmentIds.isEmpty then u.messageBody body else u.caption body with
      | .error error => st.answered i post since (.refused error)
      | .ok body =>
        match replyTo with
        | none => st.goOn i (.posts post since (.mints body))
        | some parent => st.goOn i (.posts post since (.repliesTo body parent))

def replyTo (st : Server) (i : ℕ) (post : Post) (since : ℕ) (body : Body) (parent : MessageId) :
    Server :=
  match st.find parent with
  | none => st.answered i post since (.refused ⟨.notFound, "No such message."⟩)
  | some parent =>
    if parent.roomId ≠ post.roomId then
      st.answered i post since (.refused ⟨.validation, "Replies stay in their room."⟩)
    else st.goOn i (.posts post since (.mints body))

/-- What a post writes, in one transaction. -/
def write (st : Server) (i : ℕ) (post : Post) (since : ℕ) (body : Body) (id : MessageId)
    (now : ℕ) : Server :=
  match post.checkIn st.nonces now with
  | some saved => st.goOn i (.posts post since (.finds saved))
  | none =>
    ({ st with
      messages := st.messages ++
        [⟨id, post.roomId, post.authorId, post.nonce, body, post.attachmentIds, now⟩]
      nonces := post.remember st.nonces id now
      attachments := post.attachmentIds.foldl (fun attachments attachmentId =>
        attachments.modify attachmentId (attach id)) st.attachments
      markers := advanceReadMarker st.markers post.authorId post.roomId id
        (st.messages.length + 1) } : Server).goOn i (.posts post since (.answers id))

/-- The answer to a retry of a post that was saved. -/
def alreadyPosted (st : Server) (i : ℕ) (post : Post) (since : ℕ) (id : MessageId) : Server :=
  match st.find id with
  | none => st.answered i post since (.refused ⟨.notFound, "No such message."⟩)
  | some message =>
    if message.roomId ≠ post.roomId then
      st.answered i post since
        (.refused ⟨.conflict, "That send was already posted in another conversation."⟩)
    else st.answered i post since (.message id)

/-- What a request does before it next lets anybody else go first. -/
def advance (u : Unicode) (st : Server) (i : ℕ) : Task → Server
  | .asks post archived => ask st i post archived
  | .posts post since (.checks seen left) => check u st i post since seen left
  | .posts post since (.repliesTo body parent) => replyTo st i post since body parent
  | .posts post since (.mints body) =>
    ({ st with minted := st.minted + 1 }).goOn i (.posts post since (.waits body st.minted st.now))
  | .posts post since (.waits body id now) => write st i post since body id now
  | .posts post since (.finds id) => alreadyPosted st i post since id
  | .posts post since (.answers id) => st.answered i post since (.message id)
  | .reads userId roomId id =>
    match st.find id with
    | none => st.ends i
    | some message =>
      if message.roomId ≠ roomId then st.ends i else st.goOn i (.marks userId roomId id)
  | .marks userId roomId id =>
    ({ st with
      markers := advanceReadMarker st.markers userId roomId id st.messages.length }).ends i

/-- `files` is what becomes of an upload that is on no message: it comes, finishes or goes.
`closes` is a poll's end, `isOpen` whether the transaction finds it open. `lost` is a request
given up at any point, or not answered. -/
inductive Act
  | passes (ms : ℕ)
  | files (id : AttachmentId) (attachment : Option Attachment)
  | asks (i : ℕ) (post : Post) (archived : Bool)
  | closes (pollId : MessageId) (isOpen : Bool) (question : Body) (winners : List Body)
  | reads (i : ℕ) (userId : UserId) (roomId : RoomId) (id : MessageId)
  | step (i : ℕ)
  | lost (i : ℕ)

/-- One more task, under a number no other has. -/
def Server.begin (st : Server) (i : ℕ) (task : Task) : Option Server :=
  if (st.tasks[i]?).isSome then none else some (st.goOn i task)

/-- A poll's end: the line that says so is minted and saved in the transaction itself. -/
def close (st : Server) (pollId : MessageId) (isOpen : Bool) (question : Body)
    (winners : List Body) : Server :=
  match st.find pollId with
  | none => st
  | some poll =>
    if isOpen then
      { st with
        minted := st.minted + 1
        messages := st.messages ++
          [⟨st.minted, poll.roomId, poll.authorId, none, closedWords question winners, [], st.now⟩]
            }
    else st

/-- An upload on no message. -/
def free (attachment : Option Attachment) : Bool :=
  attachment.all fun attachment => attachment.messageId.isNone

def step (u : Unicode) (st : Server) : Act → Option Server
  | .passes ms => some { st with now := st.now + ms }
  | .files id attachment =>
    if free st.attachments[id]? && free attachment then
      some { st with attachments := st.attachments.alter id fun _ => attachment }
    else none
  | .asks i post archived => st.begin i (.asks post archived)
  | .closes pollId isOpen question winners => some (close st pollId isOpen question winners)
  | .reads i userId roomId id => st.begin i (.reads userId roomId id)
  | .step i => (st.tasks[i]?).map (advance u st i)
  | .lost i => some (st.ends i)

def machine (u : Unicode) : Machine Server Act := ⟨⟨[], [], ∅, [], 0, 0, ∅, []⟩, step u⟩

end Linger.Posts
