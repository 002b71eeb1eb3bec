import Linger.FiniteMap
import Linger.Names
import Linger.StepMachine
import Mathlib.Data.List.Sort

/-! Sending from a room at its newest message: the stand-in each send shows, and how its answer and
the room's own announcement take it away again. -/
namespace Linger.Sends
open FiniteMap StepMachine Names

abbrev UserId := ℕ
abbrev RoomId := ℕ
abbrev MessageId := ℕ
abbrev AttachmentId := ℕ
abbrev Nonce := ℕ

/-- What a message says, and where, and who: all that a stand-in shares with the message it stands
for. -/
structure Said where
  roomId : RoomId
  authorId : UserId
  body : Text
  replyTo : Option MessageId
  attachments : List AttachmentId
deriving DecidableEq

structure Message where
  id : MessageId
  said : Said
deriving DecidableEq

/-- `PendingSend`: a stand-in, under the key of its send. -/
structure PendingSend where
  key : ℕ
  message : Said
deriving DecidableEq

structure RoomStream where
  messages : List Message
  pending : List PendingSend
  /-- The key of the stand-in each send's message had. -/
  sentAs : FMap MessageId ℕ

def ids (list : List Message) : List MessageId := list.map Message.id

def sortById (list : List Message) : List Message := list.insertionSort fun a b => a.id ≤ b.id

/-- Insert or replace one message, keeping the list in id order. -/
def mergeMessage (list : List Message) (message : Message) : List Message :=
  if message.id ∈ ids list then list.replaceF fun held => if held.id = message.id then some message
    else none
  else
    match list.getLast? with
    | none => list ++ [message]
    | some newest =>
      if newest.id < message.id then list ++ [message] else sortById (list ++ [message])

/-- Whether a confirmed message is the one a still-open send was waiting for, by what was said. -/
def matchesPending (pending confirmed : Said) : Bool :=
  pending.roomId == confirmed.roomId && pending.authorId == confirmed.authorId &&
    pending.body == confirmed.body && pending.replyTo == confirmed.replyTo &&
    pending.attachments.length == confirmed.attachments.length &&
    (List.range pending.attachments.length).all fun index =>
      pending.attachments[index]? == confirmed.attachments[index]?

/-- `inStep`: an entry of `sentAs` goes when its message is let go of. -/
def inStep (stream : RoomStream) : RoomStream :=
  { stream with sentAs := stream.sentAs.filter fun id _ => id ∈ ids stream.messages }

/-- `message.create`, in a room that is open at its newest message. -/
def announced (stream : RoomStream) (message : Message) : RoomStream :=
  let merged := { stream with messages := mergeMessage stream.messages message }
  inStep <| match merged.pending.find? fun one => matchesPending one.message message.said with
    | none => merged
    | some standIn =>
      { merged with pending := merged.pending.erase standIn, sentAs :=
        merged.sentAs.insert message.id standIn.key }

/-- `clearStandIn`. -/
def clearStandIn (stream : RoomStream) (key : ℕ) : RoomStream :=
  inStep { stream with pending := stream.pending.filter fun one => one.key ≠ key }

/-- A send's own answer: the message for its stand-in, in one change. -/
def answered (stream : RoomStream) (key : ℕ) (message : Message) : RoomStream :=
  inStep <| match stream.pending.find? fun one => one.key = key with
    | none => { stream with messages := mergeMessage stream.messages message }
    | some standIn =>
      { messages := mergeMessage stream.messages message
        pending := stream.pending.filter fun one => one ≠ standIn
        sentAs := stream.sentAs.insert message.id standIn.key }

inductive Stage where
  | open
  | answered
  | failed
deriving DecidableEq

/-- A call of `sendMessage`: what it says, its one-time key, and whether it is still open. -/
structure Send where
  said : Said
  nonce : Nonce
  stage : Stage
deriving DecidableEq

/-- A message the server saved, and the one-time key it was posted with. -/
structure Post where
  nonce : Option Nonce
  message : Message
deriving DecidableEq

structure State where
  stream : RoomStream
  sends : FMap ℕ Send
  pendingSeq : ℕ
  posts : List Post

/-- The room, and whose client it is. -/
structure Room where
  id : RoomId
  me : UserId

/-- `MAX_MESSAGE_CHARS`. -/
def maxMessageChars : ℕ := 8000

/-- What the server keeps of what was sent: the body without the space around it. -/
def Said.saved (said : Said) : Said := { said with body := trim said.body }

inductive Label where
  | sends (body : Text) (replyTo : Option MessageId) (attachments : List AttachmentId)
      (nonce : Nonce)
  | posts (key : ℕ) (id : MessageId)
  | elsewhere (message : Message)
  | announces (id : MessageId)
  | answers (key : ℕ)
  | fails (key : ℕ)

/-- `sendMessage`, up to its request. -/
def send (room : Room) (st : State) (body : Text) (replyTo : Option MessageId)
    (attachments : List AttachmentId)
    (nonce : Nonce) : State :=
  let key := st.pendingSeq + 1
  let said := ⟨room.id, room.me, body, replyTo, attachments⟩
  { st with
    stream := inStep { st.stream with pending := st.stream.pending ++ [⟨key, said⟩] }
    sends := st.sends.insert key ⟨said, nonce, .open⟩
    pendingSeq := key }

/-- The message saved with a one-time key. -/
def posted (st : State) (nonce : Nonce) : Option Message :=
  (st.posts.find? fun post => post.nonce = some nonce).map Post.message

def isNew (st : State) (id : MessageId) : Bool := st.posts.all fun post => post.message.id ≠ id

def step (room : Room) (st : State) : Label → Option State
  | .sends body replyTo attachments nonce => some (send room st body replyTo attachments nonce)
  | .posts key id =>
    match st.sends[key]? with
    | some one =>
      -- A retry of a post that was saved saves nothing more; a send that gave up may still be
      -- saved.
      if one.stage ≠ .answered ∧ posted st one.nonce = none ∧ isNew st id = true ∧
          (trim one.said.body).length ≤ maxMessageChars then
        some { st with posts := st.posts ++ [⟨some one.nonce, ⟨id, one.said.saved⟩⟩] }
      else none
    | none => none
  | .elsewhere message =>
    if isNew st message.id then some { st with posts := st.posts ++ [⟨none, message⟩] } else none
  | .announces id =>
    match st.posts.find? fun post => post.message.id = id with
    | some post =>
      some (if post.message.said.roomId = room.id then
        { st with stream := announced st.stream post.message } else st)
    | none => none
  | .answers key =>
    match st.sends[key]? with
    | some one =>
      match one.stage, posted st one.nonce with
      | .open, some message => some { st with
          stream := answered st.stream key message
          sends := st.sends.insert key { one with stage := .answered } }
      | _, _ => none
    | none => none
  | .fails key =>
    match st.sends[key]? with
    | some one =>
      if one.stage = .open then some { st with
        stream := clearStandIn st.stream key
        sends := st.sends.insert key { one with stage := .failed } }
      else none
    | none => none

/-- A room open at its newest message, with nothing being sent. -/
def opened (history : List Message) : State :=
  ⟨⟨history, [], ∅⟩, ∅, 0, history.map fun message => ⟨none, message⟩⟩

def machine (room : Room) (history : List Message) : Machine State Label :=
  ⟨opened history, step room⟩

section Lists
variable {list : List Message} {message : Message} {id : MessageId}

theorem ids_replaceF :
    ids (list.replaceF fun held => if held.id = message.id then some message else none) =
      ids list := by
  unfold ids
  induction list with
  | nil => rfl
  | cons held list ih =>
    rw [List.replaceF]
    by_cases hid : held.id = message.id
    · simp [hid]
    · simp only [hid, if_false, List.map_cons]
      rw [ih]

/-- What is merged is the list with the message, in whatever order. -/
theorem ids_mergeMessage_perm (hnew : message.id ∉ ids list) :
    (ids (mergeMessage list message)).Perm (ids list ++ [message.id]) := by
  have happ : ids (list ++ [message]) = ids list ++ [message.id] := by
    simp [ids]
  rw [mergeMessage, if_neg hnew, ← happ]
  split
  · exact List.Perm.refl _
  · split
    · exact List.Perm.refl _
    · exact (List.perm_insertionSort _ _).map Message.id

theorem mem_ids_mergeMessage :
    id ∈ ids (mergeMessage list message) ↔ id = message.id ∨ id ∈ ids list := by
  by_cases hin : message.id ∈ ids list
  · rw [mergeMessage, if_pos hin, ids_replaceF]
    constructor
    · exact Or.inr
    · rintro (rfl | hid)
      · exact hin
      · exact hid
  · rw [(ids_mergeMessage_perm hin).mem_iff, List.mem_append, List.mem_singleton]
    exact Or.comm

theorem nodup_mergeMessage (h : (ids list).Nodup) : (ids (mergeMessage list message)).Nodup := by
  by_cases hin : message.id ∈ ids list
  · rw [mergeMessage, if_pos hin, ids_replaceF]
    exact h
  · rw [(ids_mergeMessage_perm hin).nodup_iff]
    exact h.append (List.nodup_singleton _) (List.disjoint_singleton.mpr hin)

end Lists

end Linger.Sends
