import Linger.KeysetPages

/-! The media collection: the uploads on messages, the links people typed and the messages that
are pinned, read a page at a time from three queries. -/
namespace Linger.Media

inductive MediaKind where
  | image | video | audio | file | link | pin
  deriving DecidableEq

structure Attachment where
  id : ℕ
  messageId : Option ℕ
  uploaderId : ℕ
  mime : String
  starredAt : Option ℤ
  complete : Bool
  createdAt : ℤ
  deriving DecidableEq

structure Message where
  id : ℕ
  roomId : ℕ
  authorId : ℕ
  pinnedAt : Option ℤ
  deletedAt : Option ℤ
  createdAt : ℤ
  deriving DecidableEq

structure Link where
  messageId : ℕ
  position : ℕ
  url : String
  deriving DecidableEq

structure Room where
  id : ℕ
  dm : Bool
  deriving DecidableEq

def MAX_LINKS_PER_MESSAGE : ℕ := 4

/-- The tables, with the keys they have, the ids that tell a file from a message, and no more links
on a message than are taken out of one. -/
structure Collection where
  attachments : List Attachment
  messages : List Message
  links : List Link
  rooms : List Room
  members : List (ℕ × ℕ)
  attachmentIds : attachments.Pairwise fun a b => a.id ≠ b.id
  messageIds : messages.Pairwise fun a b => a.id ≠ b.id
  linkIds : links.Pairwise fun a b => a.messageId = b.messageId → a.position ≠ b.position
  apart : ∀ a ∈ attachments, ∀ m ∈ messages, a.id ≠ m.id
  few : ∀ m ∈ messages, (links.filter fun l => l.messageId == m.id).length ≤ MAX_LINKS_PER_MESSAGE

structure Cursor where
  createdAt : ℤ
  id : ℕ
  deriving DecidableEq

structure Query where
  viewer : ℕ
  kind : Option MediaKind
  author : Option ℕ
  before : Option Cursor
  since : Option ℤ
  until' : Option ℤ
  leavingBefore : Option ℤ
  limit : ℕ

inductive Item where
  | upload (a : Attachment) (m : Message)
  | link (l : Link) (m : Message)
  | pin (m : Message)
  deriving DecidableEq

/-- What must not be split across a page boundary. -/
inductive Group where
  | upload (a : Attachment) (m : Message)
  | links (m : Message) (ls : List Link)
  | pin (m : Message)
  deriving DecidableEq

/-- A link's position is on its cursor too, and `before` ignores it. -/
def Item.cursor : Item → Cursor
  | .upload a _ => ⟨a.createdAt, a.id⟩
  | .link _ m | .pin m => ⟨m.createdAt, m.id⟩

namespace Group

def starred : Group → Bool
  | .upload a _ => a.starredAt.isSome
  | _ => false

def createdAt : Group → ℤ
  | .upload a _ => a.createdAt
  | .links m _ | .pin m => m.createdAt

def id : Group → ℕ
  | .upload a _ => a.id
  | .links m _ | .pin m => m.id

def items : Group → List Item
  | .upload a m => [.upload a m]
  | .links m ls => ls.map fun l => .link l m
  | .pin m => [.pin m]

def weight (g : Group) : ℕ := g.items.length

/-- Starred first, then newest first, then by id. -/
def sooner (g h : Group) : Bool :=
  (g.starred && !h.starred) || (g.starred == h.starred &&
    (decide (h.createdAt < g.createdAt) || (g.createdAt == h.createdAt && decide (h.id < g.id))))

def le (g h : Group) : Prop := h.sooner g = false

instance : DecidableRel le := fun g h => inferInstanceAs (Decidable (h.sooner g = false))

end Group

def IMAGE_MIME : List String := ["image/jpeg", "image/png", "image/gif", "image/webp"]
def VIDEO_MIME : List String := ["video/mp4", "video/webm", "video/quicktime"]
def AUDIO_MIME : List String :=
  ["audio/mpeg", "audio/ogg", "audio/wav", "audio/flac", "audio/aac", "audio/mp4", "audio/webm"]
def FILE_MIME : List String :=
  ["application/pdf", "application/zip", "application/gzip", "application/x-tar",
    "application/x-7z-compressed", "application/x-rar-compressed", "application/x-bzip2",
    "application/x-xz", "application/epub+zip", "application/json", "application/rtf",
    "application/msword", "application/vnd.openxmlformats-officedocument.wordprocessingml.document",
    "application/vnd.openxmlformats-officedocument.spreadsheetml.sheet",
    "application/vnd.openxmlformats-officedocument.presentationml.presentation",
    "application/vnd.oasis.opendocument.text", "application/vnd.oasis.opendocument.spreadsheet",
    "application/octet-stream", "text/plain", "text/csv"]

def mimeList : MediaKind → List String
  | .image => IMAGE_MIME
  | .video => VIDEO_MIME
  | .audio => AUDIO_MIME
  | .file => FILE_MIME
  | .link | .pin => []

def wantsAttachments : Option MediaKind → Bool
  | none | some .image | some .video | some .audio | some .file => true
  | _ => false

def Query.wants (q : Query) (kind : MediaKind) : Bool :=
  q.leavingBefore.isNone && (q.kind.isNone || q.kind == some kind)

/-- The cursor's comparison: older than it, or as old with a smaller id. -/
def Cursor.past (cursor : Cursor) (createdAt : ℤ) (id : ℕ) : Bool :=
  decide (createdAt < cursor.createdAt) ||
    (createdAt == cursor.createdAt && decide (id < cursor.id))

namespace Collection
variable (c : Collection) (q : Query)

def message? (id : ℕ) : Option Message := c.messages.find? fun m => m.id == id

def visible (m : Message) : Bool :=
  c.rooms.any fun room => room.id == m.roomId &&
    (!room.dm || c.members.contains (room.id, q.viewer))

def isStarred (cursor : Cursor) : Bool :=
  ((c.attachments.find? fun a => a.id == cursor.id).map fun a => a.starredAt.isSome).getD false

/-- Where an upload stands to the cursor: past a starred one the unstarred are still to come. -/
def ahead (pastStarred : Bool) (cursor : Cursor) (a : Attachment) : Bool :=
  if pastStarred then a.starredAt.isNone && cursor.past a.createdAt a.id
  else (a.starredAt.isSome && cursor.past a.createdAt a.id) || a.starredAt.isNone

def showsUpload (a : Attachment) (m : Message) : Bool :=
  a.complete && m.deletedAt.isNone && c.visible q m && q.author.all (· == a.uploaderId) &&
    q.kind.all (fun kind => (mimeList kind).contains a.mime) &&
    q.since.all (fun since => decide (since ≤ a.createdAt)) &&
    q.until'.all (fun until' => decide (a.createdAt ≤ until')) &&
    q.leavingBefore.all fun leaving =>
      a.starredAt.isNone && m.pinnedAt.isNone && decide (a.createdAt ≤ leaving)

def showsMessage (m : Message) : Bool :=
  m.deletedAt.isNone && c.visible q m && q.author.all (· == m.authorId) &&
    q.since.all (fun since => decide (since ≤ m.createdAt)) &&
    q.until'.all fun until' => decide (m.createdAt ≤ until')

def newestFirst (m m' : Message) : Prop :=
  ¬ (m.createdAt < m'.createdAt ∨ m.createdAt = m'.createdAt ∧ m.id < m'.id)

instance : DecidableRel newestFirst := fun _ _ => inferInstanceAs (Decidable (¬ _))

def uploadRow (a : Attachment) : Option Group :=
  (a.messageId.bind c.message?).bind fun m => if c.showsUpload q a m then some (.upload a m)
    else none

def attachmentGroups (pastStarred : Bool) : List Group :=
  (((c.attachments.filter fun a => q.before.all fun cursor => ahead pastStarred cursor a).filterMap
    (c.uploadRow q)).insertionSort Group.le).take q.limit

def linksOf (m : Message) : List Link :=
  (c.links.filter fun l => l.messageId == m.id).insertionSort fun l l' => l.position ≤ l'.position

/-- A row of the links query goes with the row before it when they are of one message. -/
def pushRow (groups : List (Message × List Link)) (row : Link × Message) :
    List (Message × List Link) :=
  match groups.getLast? with
  | some (m, ls) =>
    if m.id = row.2.id then groups.dropLast ++ [(m, ls ++ [row.1])]
      else groups ++ [(row.2, [row.1])]
  | none => [(row.2, [row.1])]

def isPast (m : Message) : Bool := q.before.all fun cursor => cursor.past m.createdAt m.id

/-- The messages a page of links covers, and every link on each of them. -/
def linkRows : List (Link × Message) :=
  (((c.messages.filter fun m => c.showsMessage q m && isPast q m &&
    c.links.any (·.messageId == m.id)
    ).insertionSort newestFirst).take q.limit).flatMap fun m => (c.linksOf m).map fun l => (l, m)

def linkGroups : List Group :=
  ((c.linkRows q).foldl pushRow []).map fun e => .links e.1 (e.2.take MAX_LINKS_PER_MESSAGE)

def pinGroups : List Group :=
  (((c.messages.filter fun m => m.pinnedAt.isSome && c.showsMessage q m && isPast q m).insertionSort
    newestFirst).take q.limit).map .pin

end Collection

/-- Whole groups until there are enough items. -/
def takeItems (limit : ℕ) : List Item → List Group → List Item
  | items, [] => items
  | items, g :: groups =>
    if limit ≤ items.length then items else takeItems limit (items ++ g.items) groups

/-- One page of the collection. -/
def page (c : Collection) (q : Query) : List Item :=
  let pastStarred := (q.before.map fun cursor => !c.isStarred cursor).getD false
  let groups := (if wantsAttachments q.kind then c.attachmentGroups q pastStarred else []) ++
    (if q.wants .link then c.linkGroups q else []) ++ if q.wants .pin then c.pinGroups q else []
  takeItems q.limit [] (groups.insertionSort Group.le)

/-- Asking again with the last item's cursor until a page is empty; `none` when there was not
enough fuel. -/
def walk (c : Collection) (q : Query) : ℕ → Option Cursor → Option (List Item)
  | 0, _ => none
  | fuel + 1, before =>
    match (page c { q with before := before }).getLast? with
    | none => some []
    | some item =>
      (walk c q fuel (some item.cursor)).map fun items =>
        page c { q with before := before } ++ items

end Linger.Media
