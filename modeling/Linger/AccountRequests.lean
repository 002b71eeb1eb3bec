import Linger.Accounts

/-! The requests that make, change, remove, restore and delete accounts, and those a member makes of
their own, each taken a step at a time. -/
namespace Linger.Accounts
open FiniteMap StepMachine Names

/-- What an access token says. -/
structure Bearer where
  userId : UserId
  generation : ℕ
deriving DecidableEq

inductive Standing where
  | host
  | cohost
  | member
deriving DecidableEq

inductive Request where
  | register (username displayName passwordHash : Text) (style : Style)
  | patchMe (bearer : Bearer) (body : UpdateMe)
  | changePassword (bearer : Bearer) (current newHash : Text)
  | login (username password : Text)
  /-- Of a link to that account that still works, as `link_state` and the claim of it find. -/
  | useLink (id : UserId) (newHash : Text)
  | refresh (token : ℕ)
  | shareSignIn (token : ℕ)
  | create (bearer : Bearer) (room : RoomId) (body : Text)
  /-- `PATCH /rooms/:id`, with the message of the day as `validate::motd` leaves it. -/
  | updateRoom (bearer : Bearer) (room : RoomId) (motd : Option Text)
  /-- `POST /rooms/:id/polls`, as `checked` leaves it. -/
  | createPoll (bearer : Bearer) (room : RoomId) (question : Text) (choices : List Text)
      (closesInDays : ℕ)
  /-- A poll closed by whoever asked, or with nobody asking by the sweeper. -/
  | closePoll (asker : Option Bearer) (poll : MessageId)
  | addReaction (bearer : Bearer) (message : MessageId) (key : Text)
  | putNotifyRule (bearer : Bearer) (target : UserId) (room : Option RoomId)
  | putReadMarker (bearer : Bearer) (room : RoomId) (message : MessageId)
  | block (bearer : Bearer) (blocked : UserId)
  | removeUser (bearer : Bearer) (id : UserId)
  | restoreUser (bearer : Bearer) (id : UserId)
  | setCohost (bearer : Bearer) (id : UserId) (on : Bool)
  | deleteRemoved (bearer : Bearer) (id : UserId) (everything : Bool)
  | deleteMe (bearer : Bearer) (password : Text) (everything : Bool)
deriving DecidableEq

/-- Who a request says it is from: nobody yet, to register or to sign in. -/
def Request.bearer : Request → Option Bearer
  | .register .. | .login .. | .useLink .. | .refresh _ | .shareSignIn _ => none
  | .closePoll asker _ => asker
  | .updateRoom bearer .. | .createPoll bearer .. => some bearer
  | .patchMe bearer .. | .changePassword bearer .. | .create bearer .. | .addReaction bearer .. =>
    some bearer
  | .putNotifyRule bearer .. | .putReadMarker bearer .. | .block bearer .. => some bearer
  | .removeUser bearer .. | .restoreUser bearer .. | .setCohost bearer .. => some bearer
  | .deleteRemoved bearer .. | .deleteMe bearer .. => some bearer

/-- `still_signed_in`. -/
def stillSignedIn (db : Db) (bearer : Bearer) : Bool :=
  (activeRow db bearer.userId).any fun row => row.tokenGeneration ≤ bearer.generation

/-- `standing`: where somebody on the server stands. -/
def standing (db : Db) (id : UserId) : Option Standing :=
  (activeRow db id).map fun row => if row.isHost then .host else if row.isCohost then .cohost
    else .member

/-- Who may make the request at all: `AuthedUser`, `HostUser` or `HostOrCohost`. -/
def Request.allows : Request → Standing → Bool
  | .setCohost .., standing | .deleteRemoved .., standing => standing == .host
  | .removeUser .., standing | .restoreUser .., standing => standing != .member
  | .updateRoom .., standing | .createPoll .., standing => standing != .member
  | _, _ => true

/-- The extractor: whoever the token is of stands somewhere, and where they stand is enough. -/
def Request.authenticate (db : Db) (request : Request) : Option Standing :=
  match request.bearer with
  | none => some .member
  | some bearer =>
    if stillSignedIn db bearer then (standing db bearer.userId).filter request.allows else none

/-- `expect_account`. -/
def expectAccount (db : Db) (id : UserId) : Bool :=
  (db.users[id]?).any fun row => row.deletedAt.isNone

inductive Stage where
  | sent
  | authed (acting : Standing)
  | checked (changed : Bool)
  /-- What is left of `auth_response`: the pair this sign-in is given. -/
  | issuing (id : UserId)
deriving DecidableEq

/-- A room as a request finds it. -/
structure RoomRow where
  isDm : Bool
  archivedAt : Option ℕ
  motd : Text

/-- What a check finds of what is not kept here: the time, and the room the request names, if it is
there for whoever asks. -/
structure Seen where
  now : ℕ
  room : Option RoomRow

/-- The account a username and a password sign in to. -/
def signInTo (outside : Outside) (db : Db) (username password : Text) : Option UserId :=
  let username := outside.unicode.toLowercase (trim username)
  (db.users.toList.find? fun entry => entry.2.username == username && entry.2.active).bind
      fun entry =>
    if !entry.2.passwordHash.isEmpty && outside.verify password entry.2.passwordHash then
      some entry.1 else none

/-- A request that goes on to its transaction once its check has passed. -/
def goesOn (passes : Bool) : Option Stage := if passes then some (.checked false) else none

/-- `open_poll`: a poll that is there, and open at `now`. -/
def openPoll (db : Db) (poll : MessageId) (now : ℕ) : Option Message :=
  db.messages.find? fun held => decide (held.id = poll) && held.deletedAt.isNone &&
    match held.line with
    | .poll _ closesAt none => decide (now < closesAt)
    | _ => false

/-- A poll the sweeper finds to close: its time is up. -/
def dueToClose (db : Db) (poll : MessageId) (now : ℕ) : Bool :=
  db.messages.any fun held => decide (held.id = poll) && held.deletedAt.isNone &&
    match held.line with
    | .poll _ closesAt none => decide (closesAt ≤ now)
    | _ => false

/-- What a request reads before it writes, and where it then stands: for `patch_me` whether the name
is a new one, for `update` whether the message of the day is. `login` has nothing left to write but
when somebody was last seen, and goes on to its pair. -/
def Request.check (outside : Outside) (db : Db) (acting : Standing) (seen : Seen) :
    Request → Option Stage
  | .register username displayName _ _ =>
    goesOn (usernameFits username && outside.displayNameFits displayName)
  | .patchMe bearer body =>
    match body.displayName with
    | none => some (.checked false)
    | some name =>
      (activeRow db bearer.userId).bind fun held =>
        let nameChanged := decide (trim name ≠ held.displayName)
        if nameChanged && !outside.displayNameFits name then none else some (.checked nameChanged)
  | .changePassword bearer current _ =>
    goesOn ((activeRow db bearer.userId).any fun row => outside.verify current row.passwordHash)
  | .login username password => (signInTo outside db username password).map .issuing
  | .useLink id _ => goesOn ((activeRow db id).any fun row => !row.isHost)
  | .refresh _ | .shareSignIn _ => goesOn true
  | .create .. => goesOn (seen.room.any fun room => room.archivedAt.isNone)
  | .updateRoom _ _ motd =>
    seen.room.bind fun room =>
      let changed := motd.any fun text => decide (text ≠ room.motd)
      let speaks := changed && motd.any fun text => !text.isEmpty
      if room.isDm || (speaks && room.archivedAt.isSome) then none else some (.checked changed)
  | .createPoll .. => goesOn (seen.room.any fun room => !room.isDm && room.archivedAt.isNone)
  | .closePoll asker poll =>
    match asker with
    | some bearer =>
      goesOn ((openPoll db poll seen.now).any fun held => decide (held.authorId = bearer.userId))
    | none => goesOn (dueToClose db poll seen.now)
  | .addReaction _ message _ =>
    goesOn (db.messages.any fun held => decide (held.id = message) && held.deletedAt.isNone &&
      !held.quiet && !held.closesPoll)
  | .putNotifyRule _ target _ => goesOn (activeRow db target).isSome
  | .putReadMarker _ room message =>
    goesOn (db.messages.any fun held => held.id = message ∧ held.roomId = room)
  | .block bearer blocked =>
    goesOn (decide (blocked ≠ bearer.userId) && (activeRow db blocked).isSome)
  | .removeUser bearer id =>
    goesOn (decide (id ≠ bearer.userId ∧ ¬(acting = .cohost ∧ standing db id = some .host)) &&
      expectAccount db id)
  | .restoreUser _ id => goesOn (expectAccount db id)
  | .setCohost bearer id _ => goesOn (decide (id ≠ bearer.userId) && (activeRow db id).isSome)
  | .deleteRemoved _ id _ => goesOn (isRemoved db id && !isDeleted db id)
  | .deleteMe bearer password _ =>
    goesOn ((activeRow db bearer.userId).any fun row => !row.isHost &&
      outside.verify password row.passwordHash)

/-- What a transaction draws or finds of what is not kept here: the time, a new id, the lines of the
DMs left, and the choices that won a poll. -/
structure Drawn where
  now : ℕ
  id : ℕ
  dms : List (RoomId × MessageId)
  winners : List Text

/-- The one transaction of a request. -/
def Request.commit (outside : Outside) (db : Db) (changed : Bool) (drawn : Drawn) :
    Request → Option Db
  | .register username displayName passwordHash style =>
    Accounts.register outside db drawn.id username displayName passwordHash style
  | .patchMe bearer body => Accounts.patchMe outside db bearer.userId body changed drawn.now
  | .changePassword bearer _ newHash =>
    some (Accounts.changePassword db bearer.userId newHash drawn.now)
  | .login .. => none
  | .useLink id newHash => Accounts.useLink db id newHash drawn.now
  | .refresh token => Accounts.rotateRefresh db token drawn.id drawn.now
  | .shareSignIn token => Accounts.shareFamily db token drawn.id drawn.now
  | .create bearer room body => some (Accounts.create db bearer.userId room body drawn.id)
  | .updateRoom bearer room motd =>
    some (Accounts.updateRoom db bearer.userId room motd changed drawn.id)
  | .createPoll bearer room question choices days =>
    some (Accounts.createPoll db bearer.userId room question choices days drawn.id drawn.now)
  | .closePoll _ poll => Accounts.closePoll db poll drawn.winners drawn.id drawn.now
  | .addReaction bearer message key => some (Accounts.addReaction db bearer.userId message key)
  | .putNotifyRule bearer target room => some (Accounts.putNotifyRule db bearer.userId target room)
  | .putReadMarker bearer room message =>
    some (Accounts.advanceReadMarker db bearer.userId room message)
  | .block bearer blocked => some (Accounts.block db bearer.userId blocked)
  | .removeUser _ id => some (Accounts.removeUser db id drawn.now)
  | .restoreUser _ id => some (Accounts.restoreUser db id)
  | .setCohost _ id on => some (Accounts.setCohost db id on)
  | .deleteRemoved _ id everything => Accounts.delete db id everything drawn.now drawn.dms
  | .deleteMe bearer _ everything => Accounts.delete db bearer.userId everything drawn.now drawn.dms

structure Flight where
  request : Request
  stage : Stage
deriving DecidableEq

/-- What a deletion that committed was: whose account, whether its owner asked or it stood removed
then, and whether what they wrote was to go. -/
structure Deletion where
  id : UserId
  asked : Bool
  wasRemoved : Bool
  everything : Bool
deriving DecidableEq

structure State where
  db : Db
  flights : FMap ℕ Flight
  deletions : List Deletion

/-- The deletion a request's transaction makes. -/
def Request.deletes (db : Db) : Request → Option Deletion
  | .deleteRemoved _ id everything => some ⟨id, false, isRemoved db id, everything⟩
  | .deleteMe bearer _ everything =>
    some ⟨bearer.userId, true, isRemoved db bearer.userId, everything⟩
  | _ => none

/-- Who a request signs in once it has written: these answer with a pair. -/
def Request.signsIn (drawn : Drawn) : Request → Option UserId
  | .register .. => some drawn.id
  | .changePassword bearer .. => some bearer.userId
  | .useLink id _ => some id
  | _ => none

inductive Label where
  | sends (r : ℕ) (request : Request)
  | authenticates (r : ℕ)
  | checks (r : ℕ) (seen : Seen)
  | commits (r : ℕ) (drawn : Drawn)
  | issues (r token now : ℕ)
  | ends (r : ℕ)

def State.at (st : State) (r : ℕ) (flight : Flight) : State :=
  { st with flights := st.flights.insert r flight }

def State.over (st : State) (r : ℕ) : State := { st with flights := st.flights.erase r }

/-- What a transaction leaves: the database it wrote, the request done or still to sign in. -/
def State.committed (st : State) (r : ℕ) (request : Request) (drawn : Drawn) (db : Db) : State :=
  { db := db
    flights := match request.signsIn drawn with
      | some id => st.flights.insert r ⟨request, .issuing id⟩
      | none => st.flights.erase r
    deletions := st.deletions ++ (request.deletes st.db).toList }

def commits (outside : Outside) (st : State) (r : ℕ) (flight : Flight) (drawn : Drawn) :
    Option State :=
  match flight.stage with
  | .checked changed =>
    (flight.request.commit outside st.db changed drawn).map (st.committed r flight.request drawn)
  | _ => none

def step (outside : Outside) (st : State) : Label → Option State
  | .sends r request => if (st.flights[r]?).isSome then none else some (st.at r ⟨request, .sent⟩)
  | .authenticates r =>
    (st.flights[r]?).bind fun flight =>
      match flight.stage with
      | .sent => (flight.request.authenticate st.db).map fun acting =>
        st.at r ⟨flight.request, .authed acting⟩
      | _ => none
  | .checks r seen =>
    (st.flights[r]?).bind fun flight =>
      match flight.stage with
      | .authed acting =>
        (flight.request.check outside st.db acting seen).map fun stage =>
          st.at r ⟨flight.request, stage⟩
      | _ => none
  | .commits r drawn => (st.flights[r]?).bind fun flight => commits outside st r flight drawn
  | .issues r token now =>
    (st.flights[r]?).bind fun flight =>
      match flight.stage with
      | .issuing id => some { st.over r with db := issueRefreshFamily st.db id token now }
      | _ => none
  | .ends r => if (st.flights[r]?).isSome then some (st.over r) else none

def machine (outside : Outside) (db : Db) : Machine State Label := ⟨⟨db, ∅, []⟩, step outside⟩

section Cases
variable {outside : Outside} {st st' : State}

/-- All a step can do: nothing to the database, one request's transaction, or the pair of a
sign-in. -/
theorem step_cases {label : Label} (h : step outside st label = some st') :
    ((∀ r drawn, label ≠ .commits r drawn) ∧ st'.db = st.db ∧ st'.deletions = st.deletions) ∨
    (∃ r drawn request changed db, label = .commits r drawn ∧
      st.flights[r]? = some ⟨request, .checked changed⟩ ∧
      request.commit outside st.db changed drawn = some db ∧
      st' = st.committed r request drawn db) ∨
    ∃ r token now request id, label = .issues r token now ∧
      st.flights[r]? = some ⟨request, .issuing id⟩ ∧
      st'.db = issueRefreshFamily st.db id token now ∧ st'.deletions = st.deletions := by
  cases label with
  | sends r request =>
    obtain ⟨-, he⟩ := Option.ite_none_left_eq_some.mp h
    cases he
    exact Or.inl ⟨by simp, rfl, rfl⟩
  | authenticates r =>
    obtain ⟨flight, -, h⟩ := Option.bind_eq_some_iff.mp h
    split at h
    · obtain ⟨acting, -, he⟩ := Option.map_eq_some_iff.mp h
      cases he
      exact Or.inl ⟨by simp, rfl, rfl⟩
    · exact absurd h (by simp)
  | checks r seen =>
    obtain ⟨flight, -, h⟩ := Option.bind_eq_some_iff.mp h
    split at h
    · obtain ⟨stage, -, he⟩ := Option.map_eq_some_iff.mp h
      cases he
      exact Or.inl ⟨by simp, rfl, rfl⟩
    · exact absurd h (by simp)
  | commits r drawn =>
    obtain ⟨⟨request, stage⟩, hf, h⟩ := Option.bind_eq_some_iff.mp h
    unfold commits at h
    split at h
    · next changed hs =>
      obtain ⟨db, hdb, he⟩ := Option.map_eq_some_iff.mp h
      rw [show stage = .checked changed from hs] at hf
      exact Or.inr (Or.inl ⟨r, drawn, request, changed, db, rfl, hf, hdb, he.symm⟩)
    · exact absurd h (by simp)
  | issues r token now =>
    obtain ⟨⟨request, stage⟩, hf, h⟩ := Option.bind_eq_some_iff.mp h
    split at h
    · next id hs =>
      cases h
      rw [show stage = .issuing id from hs] at hf
      exact Or.inr (Or.inr ⟨r, token, now, request, id, rfl, hf, rfl, rfl⟩)
    · exact absurd h (by simp)
  | ends r =>
    obtain ⟨-, he⟩ := Option.ite_none_right_eq_some.mp h
    cases he
    exact Or.inl ⟨by simp, rfl, rfl⟩

end Cases
end Linger.Accounts
