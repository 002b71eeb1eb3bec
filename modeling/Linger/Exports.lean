import Linger.FiniteMap
import Linger.StepMachine

/-! Export archives: a row for each job, a worker that builds it, an object in the store under the
row's key, and what forgets, sweeps and recovers them, each in the steps it takes. -/
namespace Linger.Exports
open FiniteMap StepMachine

abbrev ExportId := ℕ
abbrev UserId := ℕ

/-- `exports/{id}.zip`. -/
structure Key where
  id : ExportId
deriving DecidableEq

def objectKey (id : ExportId) : Key := ⟨id⟩

inductive JobState where
  | queued
  | running
  | complete
  | failed
deriving DecidableEq

/-- A row of `exports`. -/
structure Row where
  id : ExportId
  userId : UserId
  state : JobState
  objectKey : Option Key
  sizeBytes : ℕ
  finishedAt : Option ℕ
deriving DecidableEq

def JobState.over : JobState → Bool
  | .complete | .failed => true
  | .queued | .running => false

/-- `KEPT_FOR_MS`: a week. -/
def keptForMs : ℕ := 7 * 24 * 60 * 60 * 1000

/-- `HEADROOM_BYTES`. -/
def headroomBytes : ℕ := 256 * 1024 * 1024

/-- `room_needed`: the files, twice over where they are downloaded first, and the headroom. -/
def roomNeeded (onS3 : Bool) (media : List ℕ) : ℕ :=
  media.sum * (if onS3 then 2 else 1) + headroomBytes

/-- `replaced_bytes`: what starting a new export frees on this machine's disk. -/
def replacedBytes (onS3 : Bool) (rows : List Row) (user : UserId) : ℕ :=
  if onS3 then 0
  else ((rows.filter fun row => row.userId = user ∧ row.state = .complete).map Row.sizeBytes).sum

/-- `check_room`: a server that can't tell how much space it has refuses nobody. -/
def checkRoom (needed freed : ℕ) (free : Option ℕ) : Bool :=
  free.all fun free => needed ≤ free + freed

/-- Where a job's worker stands: in the queue, building, with its archive stored, or with the
archive of a row that went to delete. -/
inductive Task where
  | waiting
  | building
  | stored
  | leftover
deriving DecidableEq

/-- How far `forget` has come: its read of the keys ahead, or the objects left to delete. -/
inductive Forget where
  | reads
  | deletes (keys : List Key)
deriving DecidableEq

/-- Who asked for the archive to be forgotten: a start, or a removal or deletion of the member. -/
inductive By where
  | start
  | removal
deriving DecidableEq

/-- An entry of a sweep's list, and whether its object is gone already. -/
structure Sweeping where
  id : ExportId
  key : Option Key
  bytesGone : Bool
deriving DecidableEq

inductive Flight where
  | starts (user : UserId)
  | forgets (user : UserId) (by' : By) (stage : Forget)
  | inserts (user : UserId)
  | sweeps (list : List Sweeping)
deriving DecidableEq

/-- A sweep is the server's own; everything else in flight is for a caller. -/
def Flight.asked : Flight → Bool
  | .sweeps _ => false
  | _ => true

structure State where
  rows : List Row
  store : List Key
  removed : List UserId
  flights : FMap ℕ Flight
  tasks : FMap ExportId Task
  next : ExportId
  up : Bool

/-- `ends` is a request whose caller hangs up, or that fails between two of its steps: what it has
done stays done, and the rest is not. `insertsAlone` is a start's that ends as its `INSERT` runs:
the row is there, and nobody to work on it. -/
inductive Label where
  | asks (r : ℕ) (user : UserId)
  | refuses (r : ℕ)
  | ends (r : ℕ)
  | hasRoom (r : ℕ) (media : List ℕ) (free : Option ℕ)
  | removes (r : ℕ) (user : UserId)
  | restores (user : UserId)
  | readsKeys (r : ℕ)
  | deletesObject (r : ℕ)
  | deletesRows (r : ℕ)
  | inserts (r : ℕ)
  | insertsAlone (r : ℕ)
  | claims (id : ExportId)
  | fails (id : ExportId) (now : ℕ)
  | stores (id : ExportId)
  | completes (id : ExportId) (size now : ℕ)
  | deletesOwn (id : ExportId)
  | sweeps (r : ℕ) (now : ℕ)
  | sweepsObject (r : ℕ)
  | sweepsRow (r : ℕ)
  | stops
  | recovers (now : ℕ)

def State.at (st : State) (r : ℕ) (flight : Flight) : State :=
  { st with flights := st.flights.insert r flight }

def State.over (st : State) (r : ℕ) : State := { st with flights := st.flights.erase r }

/-- A request that comes in while the server is up, under a number no other has. -/
def comesIn (st : State) (r : ℕ) (flight : Flight) : Option State :=
  if st.up && (st.flights[r]?).isNone then some (st.at r flight) else none

/-- `DELETE FROM exports WHERE user_id = ?`. -/
def deleteRows (st : State) (user : UserId) : State :=
  { st with rows := st.rows.filter fun row => row.userId ≠ user }

/-- What `forget` is for: a start goes on to its row, a removal is done. -/
def forgotten (st : State) (r : ℕ) (user : UserId) : By → State
  | .start => (deleteRows st user).at r (.inserts user)
  | .removal => (deleteRows st user).over r

/-- One step of `forget`, on its way. -/
def forget (st : State) (r : ℕ) (user : UserId) (by' : By) : Label → Forget → Option State
  | .readsKeys _, .reads =>
    let keys := (st.rows.filter fun row => row.userId = user).filterMap Row.objectKey
    some (st.at r (.forgets user by' (.deletes keys)))
  | .deletesObject _, .deletes (key :: keys) =>
    some ({ st with store := st.store.filter (· ≠ key) }.at r (.forgets user by' (.deletes keys)))
  | .deletesRows _, .deletes [] => some (forgotten st r user by')
  | _, _ => none

/-- The row of a new job, and the task spawned for it. -/
def insertRow (st : State) (user : UserId) : State :=
  { st with
    rows := st.rows ++ [⟨st.next, user, .queued, none, 0, none⟩]
    tasks := st.tasks.insert st.next .waiting
    next := st.next + 1 }

/-- `UPDATE exports … WHERE id = ?`. -/
def updateRow (st : State) (id : ExportId) (f : Row → Row) : State :=
  { st with rows := st.rows.map fun row => if row.id = id then f row else row }

def hasRow (st : State) (id : ExportId) : Bool := st.rows.any fun row => row.id = id

def State.task (st : State) (id : ExportId) (task : Task) : State :=
  { st with tasks := st.tasks.insert id task }

def State.taskOver (st : State) (id : ExportId) : State := { st with tasks := st.tasks.erase id }

/-- One archive builds at a time: nobody else's worker has its turn. -/
def turnFree (st : State) : Bool := st.tasks.toList.all fun entry => entry.2 = .waiting

/-- A worker's turn comes: it claims the row if that still waits. -/
def claim (st : State) (id : ExportId) : State :=
  if st.rows.any fun row => row.id = id ∧ row.state = .queued then
    (updateRow st id fun row => if row.state = .queued then
      { row with state := .running, objectKey := some (objectKey id) } else row).task id .building
  else st.taskOver id

def failRow (st : State) (id : ExportId) (now : ℕ) : State :=
  (updateRow st id fun row => { row with state := .failed, finishedAt := some now }).taskOver id

/-- The completing `UPDATE`: with no row left to complete, what was stored is to go. -/
def complete (st : State) (id : ExportId) (size now : ℕ) : State :=
  if hasRow st id then
    (updateRow st id fun row =>
      { row with state := .complete, sizeBytes := size, finishedAt := some now }).taskOver id
  else st.task id .leftover

/-- A step of a job's worker. -/
def work (st : State) (id : ExportId) : Label → Task → Option State
  | .claims _, .waiting => if turnFree st then some (claim st id) else none
  | .fails _ now, .building => some (failRow st id now)
  | .stores _, .building => some ({ st with store := st.store ++ [objectKey id] }.task id .stored)
  | .completes _ size now, .stored => some (complete st id size now)
  | .deletesOwn _, .leftover =>
    some ({ st with store := st.store.filter (· ≠ objectKey id) }.taskOver id)
  | _, _ => none

/-- What a sweep reads: the jobs that were over more than a week ago. -/
def dueRows (st : State) (now : ℕ) : List Sweeping :=
  (st.rows.filter fun row => row.state.over && row.finishedAt.any fun at' => at' + keptForMs <
      now).map fun row =>
    ⟨row.id, row.objectKey, row.objectKey.isNone⟩

def withoutObject (st : State) (key : Option Key) : State :=
  { st with store := st.store.filter fun held => some held ≠ key }

def withoutRow (st : State) (id : ExportId) : State :=
  { st with rows := st.rows.filter fun row => row.id ≠ id }

/-- One step of a sweep over what it read: an entry's bytes, then its row. -/
def sweep (st : State) (r : ℕ) : Label → List Sweeping → Option State
  | .sweepsObject _, entry :: list =>
    if entry.bytesGone then none
    else some
      ((withoutObject st entry.key).at r (.sweeps ({ entry with bytesGone := true } :: list)))
  | .sweepsRow _, entry :: list =>
    if entry.bytesGone then
      some (if list = [] then
        (withoutRow st entry.id).over r else (withoutRow st entry.id).at r (.sweeps list))
    else none
  | _, _ => none

/-- `recover`: the jobs nobody works on any more have failed. -/
def recover (st : State) (now : ℕ) : State :=
  { st with
    rows := st.rows.map fun row =>
      if row.state.over then row else { row with state := .failed, finishedAt := some now }
    up := true }

def step (onS3 : Bool) (st : State) (label : Label) : Option State :=
  match label with
  | .asks r user => if user ∈ st.removed then none else comesIn st r (.starts user)
  | .removes r user =>
    comesIn { st with removed := user :: st.removed } r (.forgets user .removal .reads)
  | .restores user =>
    if st.up then some { st with removed := st.removed.filter (· ≠ user) } else none
  | .refuses r =>
    match st.flights[r]? with
    | some (.starts _) => some (st.over r)
    | _ => none
  | .ends r => if (st.flights[r]?).any Flight.asked then some (st.over r) else none
  | .hasRoom r media free =>
    match st.flights[r]? with
    | some (.starts user) =>
      if checkRoom (roomNeeded onS3 media) (replacedBytes onS3 st.rows user) free then
        some (st.at r (.forgets user .start .reads))
      else none
    | _ => none
  | .readsKeys r | .deletesObject r | .deletesRows r =>
    match st.flights[r]? with
    | some (.forgets user by' stage) => forget st r user by' label stage
    | _ => none
  | .inserts r =>
    match st.flights[r]? with
    | some (.inserts user) => some ((insertRow st user).over r)
    | _ => none
  | .insertsAlone r =>
    match st.flights[r]? with
    | some (.inserts user) => some ({ insertRow st user with tasks := st.tasks }.over r)
    | _ => none
  | .claims id | .fails id _ | .stores id | .completes id _ _ | .deletesOwn id =>
    match st.tasks[id]? with
    | some task => work st id label task
    | none => none
  | .sweeps r now =>
    match dueRows st now with
    | [] => none
    | list => comesIn st r (.sweeps list)
  | .sweepsObject r | .sweepsRow r =>
    match st.flights[r]? with
    | some (.sweeps list) => sweep st r label list
    | _ => none
  | .stops => if st.up then some { st with flights := ∅, tasks := ∅, up := false } else none
  | .recovers now => if st.up then none else some (recover st now)

def machine (onS3 : Bool) (st : State) : Machine State Label := ⟨st, step onS3⟩

end Linger.Exports
