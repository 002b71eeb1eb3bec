import Linger.StepMachine
import Linger.TaskPool
import Mathlib.Data.List.Sort

/-! Files from their slots to their deletion: the routes that reserve, fill, finish and give up
a slot, the messages that carry files, and the passes that delete them, each taken statement by
statement. -/
namespace Linger.Uploads
open FiniteMap StepMachine TaskPool

inductive SlotState where
  | pending | complete | failed | released
  deriving DecidableEq

/-- The objects stored of a file; each has a key that is a function of the file's id. -/
inductive Part where
  | object | poster | display
  deriving DecidableEq

/-- What an image is drawn from where it is shown small. -/
inductive Display where
  | itself | copy
  deriving DecidableEq

structure Attachment where
  messageId : Option ℕ
  uploaderId : ℕ
  poster : Bool
  display : Option Display
  sizeBytes : ℕ
  starredAt : Option ℕ
  state : SlotState
  createdAt : ℕ
  deriving DecidableEq

structure Message where
  pinnedAt : Option ℕ
  deletedAt : Option ℕ
  deriving DecidableEq

/-- Which files a deletion is about to take, by the rule it chose them by. -/
inductive Rule where
  | old | deleted | unposted | oldest | removed | cancelled | emoji
  deriving DecidableEq

/-- A row as a pass read it. -/
structure Held where
  id : ℕ
  rule : Rule
  state : SlotState
  poster : Bool
  display : Option Display
  sizeBytes : ℕ
  deriving DecidableEq

/-- A deletion that began, and what was so of its file then. -/
structure Begun where
  id : ℕ
  rule : Rule
  kept : Bool
  onMessage : Bool
  deriving DecidableEq

inductive FileExpiry where
  | whenFull
  | after (days : ℕ)
  | off
  deriving DecidableEq

structure Config where
  fileExpiry : FileExpiry
  poolBytes : ℕ

/-- The rows, the bytes, and the deletions that began. -/
structure Store where
  attachments : FMap ℕ Attachment
  messages : FMap ℕ Message
  pictures : List ℕ
  parts : List (ℕ × ℕ × ℕ)
  objects : List (ℕ × Part)
  made : ℕ
  posted : ℕ
  begun : List Begun

def MAX_FILE_BYTES : ℕ := 500 * 1024 * 1024
def MAX_GOING_UP_BYTES : ℕ := 1024 * 1024 * 1024
def MULTIPART_THRESHOLD_BYTES : ℕ := 8 * 1024 * 1024
def IDLE_MS : ℕ := 60 * 60 * 1000
def CEILING_MS : ℕ := 48 * 60 * 60 * 1000
def DAY_MS : ℕ := 24 * 60 * 60 * 1000
def UNPOSTED_DAYS : ℕ := 7
def MAX_ATTACHMENTS_PER_MESSAGE : ℕ := 10
def SWEEP_BATCH : ℕ := 500
def WHEN_FULL_START_PERCENT : ℕ := 90
def WHEN_FULL_TARGET_PERCENT : ℕ := 80

def FileExpiry.days : FileExpiry → Option ℕ
  | .after days => some days
  | .whenFull | .off => none

def unpostedDays (config : Config) : ℕ :=
  (config.fileExpiry.days.map fun days => min days UNPOSTED_DAYS).getD UNPOSTED_DAYS

/-- Shared before the cutoff that many days ago. -/
def Attachment.before (a : Attachment) (days now : ℕ) : Bool :=
  decide (a.createdAt + days * DAY_MS < now)

def whenFullMarks (pool : ℕ) : ℕ × ℕ :=
  (pool / 100 * WHEN_FULL_START_PERCENT, pool / 100 * WHEN_FULL_TARGET_PERCENT)

/-- How many parts an upload of this size is cut into, and how big each is. -/
def partPlan (sizeBytes : ℕ) : ℕ × ℕ :=
  if sizeBytes ≤ MULTIPART_THRESHOLD_BYTES then (1, MULTIPART_THRESHOLD_BYTES)
  else ((sizeBytes + MULTIPART_THRESHOLD_BYTES - 1) / MULTIPART_THRESHOLD_BYTES,
    MULTIPART_THRESHOLD_BYTES)

def partLen (sizeBytes number : ℕ) : Option ℕ :=
  if number = 0 ∨ (partPlan sizeBytes).1 < number then none
  else if number = (partPlan sizeBytes).1 then
    some (sizeBytes - (partPlan sizeBytes).2 * ((partPlan sizeBytes).1 - 1))
  else some (partPlan sizeBytes).2

inductive Assembled where
  | staged (sizeBytes : ℕ)
  | oversized
  | missing

def assembleFrom (parts : List (ℕ × ℕ × ℕ)) (id declared : ℕ) : List ℕ → ℕ → Assembled
  | [], total => .staged total
  | number :: numbers, total =>
    match parts.find? fun part => part.1 == id && part.2.1 == number with
    | none => .missing
    | some part =>
      if (partLen declared number).getD 0 < part.2.2 then .oversized
      else assembleFrom parts id declared numbers (total + part.2.2)

namespace Store

def assemble (store : Store) (id declared : ℕ) : Assembled :=
  assembleFrom store.parts id declared (List.range' 1 (partPlan declared).1) 0

/-- A part arrives, in place of one sent before. -/
def writePart (store : Store) (id number bytes : ℕ) : Store :=
  { store with parts :=
      (id, number, bytes) :: store.parts.filter fun part => !(part.1 == id && part.2.1 == number) }

def discard (store : Store) (id : ℕ) : Store :=
  { store with parts := store.parts.filter fun part => part.1 != id }

def put (store : Store) (id : ℕ) (part : Part) : Store :=
  { store with objects := (id, part) :: store.objects.filter (· != (id, part)) }

def deleteObject (store : Store) (id : ℕ) (part : Part) : Store :=
  { store with objects := store.objects.filter (· != (id, part)) }

def message (store : Store) (a : Attachment) : Option Message :=
  a.messageId.bind fun messageId => store.messages[messageId]?

/-- A file somebody keeps: a star on it or a pin on its message, which isn't deleted. -/
def kept (store : Store) (id : ℕ) : Bool :=
  match store.attachments[id]? with
  | none => false
  | some a =>
    match store.message a with
    | none => a.starredAt.isSome
    | some message => message.deletedAt.isNone && (a.starredAt.isSome || message.pinnedAt.isSome)

def onMessage (store : Store) (id : ℕ) : Bool :=
  match store.attachments[id]? with
  | none => false
  | some a => ((store.message a).map fun message => message.deletedAt.isNone).getD false

/-- What its uploader has going up. -/
def goingUp (store : Store) (userId : ℕ) : ℕ :=
  (((vals store.attachments).filter fun a => a.uploaderId == userId && a.state == .pending).map
    Attachment.sizeBytes).sum

def poolUsed (store : Store) : ℕ :=
  (((vals store.attachments).filter fun a => a.state == .pending || a.state == .complete).map
    Attachment.sizeBytes).sum

end Store

def Attachment.held (a : Attachment) (id : ℕ) (rule : Rule) : Held :=
  ⟨id, rule, a.state, a.poster, a.display, a.sizeBytes⟩

/-- What is deleted of a file besides its original. -/
def Held.copies (held : Held) : List Part :=
  (if held.poster then [.poster] else []) ++ (if held.display = some .copy then [.display] else [])

/-- The rule a pass takes a file by, if it takes it. -/
def expired (config : Config) (store : Store) (now id : ℕ) (a : Attachment) : Option Rule :=
  if a.state ≠ .complete then none
  else
    match store.message a with
    | some message =>
      if message.deletedAt.isSome then some .deleted
      else if a.starredAt.isNone && message.pinnedAt.isNone &&
          (config.fileExpiry.days.any fun days => a.before days now) then some .old
      else none
    | none =>
      if a.starredAt.isNone && a.before (unpostedDays config) now &&
          !store.pictures.contains id then
        some .unposted
      else none

/-- A file `when-full` may take. -/
def takeable (store : Store) (a : Attachment) : Option Rule :=
  if a.state = .complete ∧ a.starredAt = none then
    match store.message a with
    | some message =>
      if message.deletedAt.isNone && message.pinnedAt.isNone then some .oldest else none
    | none => none
  else none

/-- A removed member's: their reservations, and the finished files they never posted. -/
def unsent (store : Store) (userId id : ℕ) (a : Attachment) : Option Rule :=
  if a.uploaderId = userId ∧ a.messageId = none ∧ (a.state = .pending ∨ a.state = .complete) ∧
      id ∉ store.pictures then some .removed
  else none

/-- The rows a query chooses, in the order of their keys. -/
def Store.chosen (store : Store) (rule : ℕ → Attachment → Option Rule) : List (ℕ × Held) :=
  store.attachments.toList.filterMap fun e =>
    (rule e.1 e.2).map fun rule => (e.2.createdAt, e.2.held e.1 rule)

def oldestFirst (rows : List (ℕ × Held)) : List Held :=
  ((rows.insertionSort fun a b => a.1 ≤ b.1).take SWEEP_BATCH).map Prod.snd

/-- A row `release_idle` read: its id, whether it was pending, and when it was reserved. -/
structure Quiet where
  id : ℕ
  pending : Bool
  createdAt : ℕ
  deriving DecidableEq

def Store.quiet (store : Store) (now : ℕ) : List Quiet :=
  store.attachments.toList.filterMap fun e =>
    if e.2.state ≠ .complete ∧ e.2.createdAt + IDLE_MS < now then
      some ⟨e.1, e.2.state == .pending, e.2.createdAt⟩
    else none

/-- What `process` makes of the bytes. -/
structure Processed where
  sizeBytes : ℕ
  image : Bool
  poster : Bool
  display : Bool
  deriving DecidableEq

def Processed.displayed (file : Processed) : Option Display :=
  if file.image then some (if file.display then .copy else .itself) else none

/-- What is stored of the file, its original last. -/
def Processed.parts (file : Processed) : List Part :=
  (if file.poster then [.poster] else []) ++
    (if file.displayed = some .copy then [.display] else []) ++ [.object]

/-- What a pass has still to go through. -/
inductive Rest where
  | done
  | idle (now : ℕ) (rows : List Quiet)
  | files (rows : List Held)
  | oldest (target excess freed : ℕ) (rows : List Held)

/-- Where a request or a pass stands. -/
inductive Task where
  | writesPart (id number maxBytes : ℕ)
  | assembles (id declared : ℕ)
  | finishes (id declared staged : ℕ)
  | puts (id : ℕ) (file : Processed) (parts : List Part)
  | clears (id : ℕ) (file : Processed)
  | writesComplete (id : ℕ) (file : Processed)
  | readsBack (id : ℕ)
  | fails (id : ℕ)
  | writesFailed (id : ℕ)
  | asksPicture (held : Held)
  | throwsAway (held : Held)
  | releases (id : ℕ) (rest : Rest)
  | discards (id : ℕ) (rest : Rest)
  | discardsLast (id : ℕ) (rest : Rest)
  | forgets (id : ℕ) (rest : Rest)
  | asksStore (id now : ℕ) (rest : Rest)
  | readsPool (target : ℕ)
  | readsOldest (target excess : ℕ)
  | deletes (held : Held) (rest : Rest)
  | deletesCopies (held : Held) (copies : List Part) (row : Bool) (rest : Rest)
  | deletesRow (held : Held) (rest : Rest)
  | checks (userId : ℕ) (left ids : List ℕ)
  | checksPicture (userId id : ℕ) (left ids : List ℕ)
  | posts (ids : List ℕ)
  | pins (messageId : ℕ) (pinned : Bool)
  | tombstones (messageId : ℕ)
  | readsFiles (messageId : ℕ)
  | addsPicture (id : ℕ)
  | removesPicture (id : ℕ)
  | readsPicture (id : ℕ)

/-- What the store, or the work on a picture, answers. -/
inductive Answer where
  | ok
  | refused
  | busy
  | heard (lastReceived : Option ℕ)
  | sent (bytes : ℕ)
  | processed (file : Processed)
  deriving DecidableEq

def idleNext (now : ℕ) : List Quiet → Option Task
  | [] => none
  | row :: rows =>
    if row.createdAt + CEILING_MS < now then some (.discardsLast row.id (.idle now rows))
    else if row.pending then some (.asksStore row.id now (.idle now rows))
    else idleNext now rows

/-- A pass goes on to its next row. Making room ends once it has freed what it was over by, reads
the oldest again when a batch wasn't enough, and gives up when a whole batch freed nothing. -/
def Rest.next : Rest → Option Task
  | .done => none
  | .idle now rows => idleNext now rows
  | .files [] => none
  | .files (held :: rows) =>
    if held.state = .pending then some (.releases held.id (.files rows))
    else some (.deletes held (.files rows))
  | .oldest target excess freed rows =>
    match rows with
    | held :: rows =>
      if freed < excess then some (.deletes held (.oldest target excess freed rows))
      else some (.readsPool target)
    | [] => if freed = 0 then none else some (.readsPool target)

/-- What the last UPDATE of completing a slot writes. -/
def Attachment.completed (a : Attachment) (file : Processed) : Attachment :=
  { a with
    sizeBytes := file.sizeBytes
    poster := file.poster
    display := file.displayed
    state := .complete }

def Attachment.released (a : Attachment) : Attachment :=
  if a.state = .pending then { a with state := .released } else a

def Rest.frees (sizeBytes : ℕ) : Rest → Rest
  | .oldest target excess freed rows => .oldest target excess (freed + sizeBytes) rows
  | rest => rest

namespace Store

def writes (store : Store) (id : ℕ) (f : Attachment → Attachment) : Store :=
  { store with attachments := store.attachments.modify id f }

/-- The rows of this id that `p` holds of go. -/
def deletesWhere (store : Store) (id : ℕ) (p : Attachment → Bool) : Store :=
  if (store.attachments[id]?).any p then { store with attachments := store.attachments.erase id }
  else store

def pin (store : Store) (messageId : ℕ) (pinnedAt : Option ℕ) : Store :=
  { store with messages := store.messages.modify messageId fun message =>
      { message with pinnedAt := pinnedAt } }

def tombstone (store : Store) (messageId now : ℕ) : Store :=
  { store with messages := store.messages.modify messageId fun message =>
      { message with deletedAt := some now, pinnedAt := none } }

/-- A message is put in, and each of these files that is on none goes on it. -/
def attach (store : Store) (ids : List ℕ) : Store :=
  { store with
    messages := store.messages.insert store.posted ⟨none, none⟩
    attachments := ids.foldl (fun rows id => rows.modify id fun a =>
      { a with messageId := a.messageId.or (some store.posted) }) store.attachments
    posted := store.posted + 1 }

end Store

/-- Each of these rows goes on the message, unless it is on one. -/
theorem attach_at (ids : List ℕ) (rows : FMap ℕ Attachment) (posted other : ℕ) :
    (ids.foldl (fun rows id => rows.modify id fun a =>
      { a with messageId := a.messageId.or (some posted) }) rows)[other]? =
        (rows[other]?).map fun a =>
          if other ∈ ids then { a with messageId := a.messageId.or (some posted) } else a := by
  induction ids generalizing rows with
  | nil => simp
  | cons id ids ih =>
    rw [List.foldl_cons, ih, modify_at]
    by_cases hid : other = id
    · rw [if_pos hid, Option.map_map]
      refine congrArg (fun f => Option.map f _) (funext fun a => ?_)
      -- a row that is in the list twice is on the message already the second time
      simp [hid]
    · simp [hid]

/-- A file's own deletion begins with its original. -/
def begins (store : Store) (held : Held) (answer : Answer) : Store :=
  let store := { store with
    begun := store.begun ++ [⟨held.id, held.rule, store.kept held.id, store.onMessage held.id⟩] }
  if answer = .refused then store else store.deleteObject held.id .object

/-- The next statement of a request or a pass. -/
def advance (store : Store) (now : ℕ) (answer : Answer) : Task → Store × Option Task
  | .writesPart id number maxBytes =>
    match answer with
    | .sent bytes => (if bytes ≤ maxBytes then store.writePart id number bytes else store, none)
    | _ => (store, none)
  | .assembles id declared =>
    match answer, store.assemble id declared with
    | .ok, .staged sizeBytes => (store, some (.finishes id declared sizeBytes))
    | .ok, .oversized => (store, some (.fails id))
    | _, _ => (store, none)
  | .finishes id declared staged =>
    if MAX_FILE_BYTES < staged ∨ staged ≠ declared then (store, some (.fails id))
    else
      match answer with
      | .processed file => (store, some (.puts id file file.parts))
      | .busy => (store, none)
      | _ => (store, some (.fails id))
  | .puts id file [] => (store, some (.clears id file))
  | .puts id file (part :: parts) =>
    if answer = .refused then (store, some (.fails id))
    else (store.put id part, some (.puts id file parts))
  | .clears id file => (store.discard id, some (.writesComplete id file))
  | .writesComplete id file =>
    if answer = .refused then (store, some (.fails id))
    else
      (store.writes id fun a => a.completed file, some (.readsBack id))
  | .readsBack id =>
    if answer ≠ .refused ∧ (store.attachments[id]?).any (·.state == .complete) then (store, none)
    else (store, some (.fails id))
  | .fails id => (store.discard id, some (.writesFailed id))
  | .writesFailed id =>
    if answer = .refused then (store, none)
    else (store.writes id fun a => { a with state := .failed }, none)
  | .asksPicture held =>
    if held.id ∈ store.pictures then (store, none)
    else if held.state ≠ .complete then (store, some (.releases held.id .done))
    else (store, some (.throwsAway held))
  | .throwsAway held => (store.discard held.id, some (.deletes held .done))
  | .releases id rest =>
    (store.writes id Attachment.released, some (.discards id rest))
  | .discards id rest => (store.discard id, rest.next)
  | .discardsLast id rest => (store.discard id, some (.forgets id rest))
  | .forgets id rest => (store.deletesWhere id fun a => a.state != .complete, rest.next)
  | .asksStore id now rest =>
    match answer with
    | .heard lastReceived =>
      if lastReceived.all fun heard => decide (heard + IDLE_MS < now) then
        (store, some (.releases id rest))
      else (store, rest.next)
    | _ => (store, rest.next)
  | .readsPool target =>
    if store.poolUsed ≤ target then (store, none)
    else (store, some (.readsOldest target (store.poolUsed - target)))
  | .readsOldest target excess =>
    (store, (Rest.oldest target excess 0 (oldestFirst (store.chosen fun _ => takeable store))).next)
  | .deletes held rest =>
    (begins store held answer,
      -- a refusal is ignored when a file is thrown away, and the row stays only for an emoji's
      if answer ≠ .refused ∨ held.rule = .cancelled then
        some (.deletesCopies held held.copies true rest)
      else if held.rule = .emoji then some (.deletesCopies held held.copies false rest)
      else rest.next)
  | .deletesCopies held [] row rest =>
    (store, if row then some (.deletesRow held rest) else rest.next)
  | .deletesCopies held (part :: copies) row rest =>
    (if answer = .refused then store else store.deleteObject held.id part,
      some (.deletesCopies held copies row rest))
  | .deletesRow held rest =>
    (store.deletesWhere held.id fun a => held.rule != .removed || a.messageId.isNone,
      (rest.frees held.sizeBytes).next)
  | .checks _ [] ids => (store, some (.posts ids))
  | .checks userId (id :: left) ids =>
    (store, if (store.attachments[id]?).any fun a =>
        a.uploaderId == userId && a.state == .complete && a.messageId.isNone then
      some (.checksPicture userId id left ids) else none)
  | .checksPicture userId id left ids =>
    (store, if id ∈ store.pictures then none else some (.checks userId left ids))
  | .posts ids => (store.attach ids, none)
  | .pins messageId pinned => (store.pin messageId (if pinned then some now else none), none)
  | .tombstones messageId => (store.tombstone messageId now, some (.readsFiles messageId))
  | .readsFiles messageId =>
    (store, (Rest.files ((store.chosen fun _ a =>
      if a.messageId = some messageId ∧ a.state = .complete then some .deleted else none).map
        Prod.snd)).next)
  | .addsPicture id =>
    (if id ∈ store.pictures then store else { store with pictures := id :: store.pictures }, none)
  | .removesPicture id =>
    ({ store with pictures := store.pictures.erase id }, some (.readsPicture id))
  | .readsPicture id =>
    (store, (store.attachments[id]?).map fun a => .deletes (a.held id .emoji) .done)

/-- The rows, the messages and the deletions that began stay as they are, and no bytes go. -/
structure SameRows (store store' : Store) : Prop where
  attachments : store'.attachments = store.attachments
  messages : store'.messages = store.messages
  made : store'.made = store.made
  posted : store'.posted = store.posted
  begun : store'.begun = store.begun
  objects : ∀ key ∈ store.objects, key ∈ store'.objects

/-- What one statement can write. -/
inductive Wrote (store : Store) (answer : Answer) (task : Task) : Store → Prop where
  | bytes {store' : Store} (same : SameRows store store') : Wrote store answer task store'
  | completes {id : ℕ} {file : Processed} (place : task = .writesComplete id file)
      (ok : answer ≠ .refused) :
      Wrote store answer task (store.writes id fun a => a.completed file)
  | fails {id : ℕ} (place : task = .writesFailed id) (ok : answer ≠ .refused) :
      Wrote store answer task (store.writes id fun a => { a with state := .failed })
  | releases (id : ℕ) : Wrote store answer task (store.writes id Attachment.released)
  | forgets (id : ℕ) (p : Attachment → Bool) : Wrote store answer task (store.deletesWhere id p)
  | begins {held : Held} {rest : Rest} (place : task = .deletes held rest) :
      Wrote store answer task (begins store held answer)
  | copy {held : Held} {part : Part} {copies : List Part} {row : Bool} {rest : Rest}
      (place : task = .deletesCopies held (part :: copies) row rest) :
      Wrote store answer task (store.deleteObject held.id part)
  | posts {ids : List ℕ} (place : task = .posts ids) : Wrote store answer task (store.attach ids)
  | pins {messageId : ℕ} {pinned : Bool} (place : task = .pins messageId pinned)
      (pinnedAt : Option ℕ) (shown : pinned = false → pinnedAt = none) :
      Wrote store answer task (store.pin messageId pinnedAt)
  | tombstones (messageId now : ℕ) : Wrote store answer task (store.tombstone messageId now)

section Wrote
variable {store store' : Store} {answer : Answer} {task : Task} {now : ℕ}

theorem SameRows.refl (store : Store) : SameRows store store :=
  ⟨rfl, rfl, rfl, rfl, rfl, fun _ h => h⟩

theorem Wrote.none : Wrote store answer task store := .bytes (.refl store)

theorem Wrote.parts (parts : List (ℕ × ℕ × ℕ)) :
    Wrote store answer task { store with parts := parts } :=
  .bytes ⟨rfl, rfl, rfl, rfl, rfl, fun _ h => h⟩

theorem Wrote.pictures (pictures : List ℕ) :
    Wrote store answer task { store with pictures := pictures } :=
  .bytes ⟨rfl, rfl, rfl, rfl, rfl, fun _ h => h⟩

theorem Wrote.put (id : ℕ) (part : Part) : Wrote store answer task (store.put id part) := by
  refine .bytes ⟨rfl, rfl, rfl, rfl, rfl, fun key hkey => ?_⟩
  by_cases hsame : key = (id, part)
  · rw [hsame]
    exact List.mem_cons_self
  · exact List.mem_cons_of_mem _ (List.mem_filter.mpr ⟨hkey, by simpa using hsame⟩)

/-- A request or a pass writes, with one statement, one of these. -/
theorem advance_wrote : Wrote store answer task (advance store now answer task).1 := by
  -- Statements that only read, or that were refused, write nothing.
  cases task with
  | writesPart id number maxBytes =>
    cases answer with
    | sent bytes =>
      dsimp only [advance]
      split
      · exact .parts _
      · exact .none
    | _ => exact .none
  | assembles id declared =>
    dsimp only [advance]
    split <;> exact .none
  | finishes id declared staged =>
    dsimp only [advance]
    split
    · exact .none
    · split <;> exact .none
  | puts id file parts =>
    cases parts with
    | nil => exact .none
    | cons part parts =>
      dsimp only [advance]
      split
      · exact .none
      · exact .put id part
  | clears id file => exact .parts _
  | writesComplete id file =>
    dsimp only [advance]
    split
    · exact .none
    · next hok => exact .completes rfl hok
  | readsBack id =>
    dsimp only [advance]
    split <;> exact .none
  | fails id => exact .parts _
  | writesFailed id =>
    dsimp only [advance]
    split
    · exact .none
    · next hok => exact .fails rfl hok
  | asksPicture held =>
    dsimp only [advance]
    split
    · exact .none
    · split <;> exact .none
  | throwsAway held => exact .parts _
  | releases id rest => exact .releases id
  | discards id rest => exact .parts _
  | discardsLast id rest => exact .parts _
  | forgets id rest => exact .forgets id _
  | asksStore id now rest =>
    cases answer with
    | heard lastReceived =>
      dsimp only [advance]
      split <;> exact .none
    | _ => exact .none
  | readsPool target =>
    dsimp only [advance]
    split <;> exact .none
  | deletes held rest => exact .begins rfl
  | deletesCopies held copies row rest =>
    cases copies with
    | nil => exact .none
    | cons part copies =>
      dsimp only [advance]
      split
      · exact .none
      · exact .copy rfl
  | deletesRow held rest => exact .forgets held.id _
  | checks userId left ids => cases left <;> exact .none
  | posts ids => exact .posts rfl
  | pins messageId pinned =>
    refine .pins rfl _ fun hpinned => ?_
    rw [hpinned]
    rfl
  | tombstones messageId => exact .tombstones messageId now
  | addsPicture id =>
    dsimp only [advance]
    split
    · exact .none
    · exact .pictures _
  | removesPicture id => exact .pictures _
  | readsOldest target excess => exact .none
  | checksPicture userId id left ids => exact .none
  | readsFiles messageId => exact .none
  | readsPicture id => exact .none

end Wrote

/-- A request or a pass, by what it reads when it begins. -/
inductive Request where
  | putPart (id number : ℕ)
  | complete (id userId : ℕ)
  | cancel (id userId : ℕ)
  | releaseIdle (now : ℕ)
  | releaseFor (userId : ℕ)
  | sweep (now : ℕ)
  | keepRoom
  | makeRoomFor (sizeBytes : ℕ)
  | post (userId : ℕ) (ids : List ℕ)
  | setPin (messageId : ℕ) (pinned : Bool)
  | delete (messageId : ℕ)
  | addEmoji (id userId : ℕ)
  | removeEmoji (id : ℕ)

def begin (config : Config) (store : Store) : Request → Option Task
  | .putPart id number =>
    (store.attachments[id]?).bind fun a =>
      if a.state = .pending then
        (partLen a.sizeBytes number).map fun maxBytes => .writesPart id number maxBytes
      else none
  | .complete id userId =>
    (store.attachments[id]?).bind fun a =>
      if a.uploaderId = userId ∧ a.state = .pending then some (.assembles id a.sizeBytes) else none
  | .cancel id userId =>
    (store.attachments[id]?).bind fun a =>
      if a.uploaderId = userId ∧ a.messageId = none then some (.asksPicture (a.held id .cancelled))
      else none
  | .releaseIdle now => (Rest.idle now (store.quiet now)).next
  | .releaseFor userId => (Rest.files ((store.chosen (unsent store userId)).map Prod.snd)).next
  | .sweep now => (Rest.files (oldestFirst (store.chosen (expired config store now)))).next
  | .keepRoom =>
    if config.fileExpiry = .whenFull ∧ (whenFullMarks config.poolBytes).1 ≤ store.poolUsed then
      some (.readsPool (whenFullMarks config.poolBytes).2)
    else none
  | .makeRoomFor sizeBytes =>
    if config.fileExpiry = .whenFull then some (.readsPool (config.poolBytes - sizeBytes)) else none
  | .post userId ids =>
    if ids.length ≤ MAX_ATTACHMENTS_PER_MESSAGE ∧ ids.Nodup then some (.checks userId ids ids)
      else none
  | .setPin messageId pinned =>
    (store.messages[messageId]?).bind fun message =>
      if message.deletedAt = none then some (.pins messageId pinned) else none
  | .delete messageId =>
    (store.messages[messageId]?).bind fun message =>
      if message.deletedAt = none then some (.tombstones messageId) else none
  | .addEmoji id userId =>
    (store.attachments[id]?).bind fun a =>
      if a.state = .complete ∧ a.uploaderId = userId ∧ a.messageId = none ∧ id ∉ store.pictures then
        some (.addsPicture id)
      else none
  | .removeEmoji id => if id ∈ store.pictures then some (.removesPicture id) else none

/-- `POST /uploads`: counted and reserved in one transaction. -/
def create (config : Config) (store : Store) (userId sizeBytes now : ℕ) : Store :=
  if sizeBytes = 0 ∨ MAX_FILE_BYTES < sizeBytes ∨
      MAX_GOING_UP_BYTES < store.goingUp userId + sizeBytes ∨
      config.poolBytes < store.poolUsed + sizeBytes then store
  else { store with
    attachments := store.attachments.insert store.made
      ⟨none, userId, false, none, sizeBytes, none, .pending, now⟩
    made := store.made + 1 }

/-- Star or unstar an upload that is on a message. -/
def setStar (store : Store) (id : ℕ) (starredAt : Option ℕ) : Store :=
  store.writes id fun a =>
    if a.state = .complete ∧ a.messageId.isSome then { a with starredAt := starredAt } else a

structure Server where
  store : Store
  tasks : FMap ℕ Task

inductive Event where
  | create (userId sizeBytes now : ℕ)
  | arrives (id number bytes : ℕ)
  | star (id : ℕ) (starredAt : Option ℕ)
  | erase (messageIds : List ℕ) (now : ℕ)
  | request (i : ℕ) (request : Request)
  | step (i now : ℕ) (answer : Answer)
  | stops (i : ℕ)

def Rest.makesRoom : Rest → Bool
  | .oldest .. => true
  | _ => false

/-- It holds the turn of those that make room. -/
def Task.makesRoom : Task → Bool
  | .readsPool _ | .readsOldest _ _ => true
  | .deletes _ rest | .deletesCopies _ _ _ rest | .deletesRow _ rest => rest.makesRoom
  | _ => false

namespace Server

def goesOn (st : Server) (i : ℕ) : Store × Option Task → Server
  | (store, some task) => ⟨store, st.tasks.insert i task⟩
  | (store, none) => ⟨store, st.tasks.erase i⟩

def begins (config : Config) (st : Server) (i : ℕ) : Request → Option Server
  | .makeRoomFor sizeBytes =>
    -- it waits for its turn
    if Has st.tasks Task.makesRoom then none
    else some (st.goesOn i (st.store, begin config st.store (.makeRoomFor sizeBytes)))
  | .keepRoom =>
    if Has st.tasks Task.makesRoom then some st
    else some (st.goesOn i (st.store, begin config st.store .keepRoom))
  | request => some (st.goesOn i (st.store, begin config st.store request))

def step (config : Config) (st : Server) : Event → Option Server
  | .create userId sizeBytes now =>
    some { st with store := create config st.store userId sizeBytes now }
  | .arrives id number bytes => some { st with store := st.store.writePart id number bytes }
  | .star id starredAt => some { st with store := setStar st.store id starredAt }
  | .erase messageIds now =>
    some { st with store := messageIds.foldl (fun store id => store.tombstone id now) st.store }
  | .request i request => if (st.tasks[i]?).isSome then none else st.begins config i request
  | .step i now answer => (st.tasks[i]?).map fun task =>
    st.goesOn i (advance st.store now answer task)
  | .stops i => some { st with tasks := st.tasks.erase i }

end Server

/-- Nothing has been uploaded yet. -/
def machine (config : Config) : Machine Server Event :=
  ⟨⟨⟨∅, ∅, [], [], [], 0, 0, []⟩, ∅⟩, Server.step config⟩

end Linger.Uploads
