import Linger.AccountRequests

/-! What is left of an account that was deleted, and which writes it survives: those of anybody
else, and those of its own requests that were made in time. -/
namespace Linger.Accounts
open FiniteMap StepMachine Names
open Linger.Posts (asWords closedWords)

/-- A row with nothing left in it but the username. -/
structure Row.Empty (row : Row) : Prop where
  deactivated : row.deactivatedAt.isSome = true
  deleted : row.deletedAt.isSome = true
  displayName : row.displayName = []
  passwordHash : row.passwordHash = []
  timeZone : row.timeZone = none
  cohost : row.isCohost = false

/-- An account that is deactivated and deleted, and holds nothing of its own. -/
structure Emptied (db : Db) (id : UserId) : Prop where
  row : ∃ row : Row, db.users[id]? = some row ∧ row.Empty
  style : db.style[id]? = none
  status : db.status[id]? = none
  statusFields : db.statusFields[id]? = none
  entranceSound : db.entranceSounds[id]? = none
  readMarkers : ∀ marker ∈ db.readMarkers, marker.userId ≠ id
  notifyRules : ∀ rule ∈ db.notifyRules, rule.userId ≠ id
  blocks : ∀ block ∈ db.blocks, block.userId ≠ id
  refreshTokens : ∀ token ∈ db.refreshTokens, token.userId ≠ id

/-- Nothing somebody wrote is left but quiet lines. -/
def Silent (db : Db) (id : UserId) : Prop :=
  ∀ message ∈ db.messages, message.authorId = id →
    message.deletedAt.isSome = true ∨ message.quiet = true

/-- Whether a `PATCH /me` writes anything that is not empty. -/
def UpdateMe.brings (body : UpdateMe) : Bool :=
  (body.displayName.any fun name => !(trim name).isEmpty) || body.style.isSome ||
    body.status.isSome ||
    (body.entranceSound.any fun sound => !sound.isEmpty) ||
    body.timeZone.any fun zone => !zone.isEmpty

/-- When a transaction comes in time: what it writes for somebody, it writes before their account is
deleted; nobody is let back in after it; and an account the host deletes is still a removed one. -/
def Request.InTime (db : Db) : Request → Prop
  | .patchMe bearer body => body.brings = true → isDeleted db bearer.userId = false
  | .updateRoom bearer _ motd =>
    (motd.any fun text => !text.isEmpty) = true → isDeleted db bearer.userId = false
  | .changePassword bearer .. | .create bearer .. | .putNotifyRule bearer .. =>
    isDeleted db bearer.userId = false
  | .createPoll bearer .. => isDeleted db bearer.userId = false
  | .putReadMarker bearer .. | .block bearer .. => isDeleted db bearer.userId = false
  | .restoreUser _ id => isDeleted db id = false
  | .deleteRemoved _ id _ => isRemoved db id = true
  | _ => True

instance (db : Db) : (request : Request) → Decidable (request.InTime db)
  | .patchMe bearer body =>
    inferInstanceAs (Decidable (body.brings = true → isDeleted db bearer.userId = false))
  | .updateRoom bearer _ motd =>
    inferInstanceAs
      (Decidable ((motd.any fun text => !text.isEmpty) = true → isDeleted db bearer.userId = false))
  | .changePassword bearer .. | .create bearer .. | .putNotifyRule bearer .. =>
    inferInstanceAs (Decidable (isDeleted db bearer.userId = false))
  | .createPoll bearer .. => inferInstanceAs (Decidable (isDeleted db bearer.userId = false))
  | .putReadMarker bearer .. | .block bearer .. =>
    inferInstanceAs (Decidable (isDeleted db bearer.userId = false))
  | .restoreUser _ id => inferInstanceAs (Decidable (isDeleted db id = false))
  | .deleteRemoved _ id _ => inferInstanceAs (Decidable (isRemoved db id = true))
  | .register .. | .login .. | .useLink .. | .refresh _ | .shareSignIn _ | .closePoll .. =>
    isTrue trivial
  | .addReaction .. | .removeUser .. | .setCohost .. | .deleteMe .. => isTrue trivial

/-- Who a request that has written is still to sign in. -/
def Stage.signsIn : Stage → Option UserId
  | .issuing id => some id
  | _ => none

/-- The condition on a step: that the transaction it makes comes in time, and nobody is signed in
whose account is deleted. -/
def InTime (st : State) : Label → Prop
  | .commits r _ => ∀ flight ∈ st.flights[r]?, flight.request.InTime st.db
  | .issues r .. =>
    ∀ flight ∈ st.flights[r]?, ∀ id ∈ flight.stage.signsIn, isDeleted st.db id = false
  | _ => True

instance (st : State) : (label : Label) → Decidable (InTime st label)
  | .commits r _ =>
    inferInstanceAs (Decidable (∀ flight ∈ st.flights[r]?, flight.request.InTime st.db))
  | .issues r .. =>
    inferInstanceAs (Decidable (∀ flight ∈ st.flights[r]?, ∀ id ∈ flight.stage.signsIn,
      isDeleted st.db id = false))
  | .sends .. | .authenticates _ | .checks .. | .ends _ => isTrue trivial

section Keeps
variable {outside : Outside} {db db' : Db} {id who : UserId} {now : ℕ}

/-- Nobody whose row is empty is on the server. -/
theorem Row.Empty.not_active {row : Row} (h : row.Empty) : row.active = false :=
  Option.isNone_eq_false_iff.mpr h.deactivated

theorem Emptied.isDeleted (h : Emptied db id) : isDeleted db id = true := by
  obtain ⟨row, hrow, he⟩ := h.row
  rw [Accounts.isDeleted, hrow]
  exact he.deleted

theorem Emptied.ne_of_kept (h : Emptied db id) (hw : Accounts.isDeleted db who = false) :
    who ≠ id := by
  intro he
  rw [he, h.isDeleted] at hw
  exact absurd hw (by simp)

theorem Emptied.updateUser (h : Emptied db id) {f : Row → Row}
    (hf : who = id → ∀ row : Row, row.Empty → (f row).Empty) :
    Emptied (updateUser db who f) id := by
  obtain ⟨row, hrow, he⟩ := h.row
  refine { h with row := ?_ }
  by_cases hw : who = id
  · refine ⟨f row, ?_, hf hw row he⟩
    rw [Accounts.updateUser, modify_at, if_pos hw.symm, hrow, Option.map_some]
  · refine ⟨row, ?_, he⟩
    rw [Accounts.updateUser, modify_at, if_neg fun hid => hw hid.symm, hrow]

theorem Emptied.endSignIns (h : Emptied db id) : Emptied (endSignIns db who now) id := by
  apply Emptied.updateUser
  · refine { h with refreshTokens := fun token ht => ?_ }
    obtain ⟨held, hheld, he⟩ := List.mem_map.mp ht
    have hne := h.refreshTokens held hheld
    rw [← he]
    split <;> exact hne
  · intro _ row hrow
    exact { hrow with }

theorem Emptied.register (h : Emptied db id) {username displayName passwordHash : Text}
    {style : Style}
    (hc : register outside db who username displayName passwordHash style = some db') :
    Emptied db' id := by
  obtain ⟨-, hc⟩ := Option.ite_none_left_eq_some.mp hc
  obtain ⟨hnew, he⟩ := Option.ite_none_left_eq_some.mp hc
  cases he
  obtain ⟨row, hrow, hempty⟩ := h.row
  have hne : id ≠ who := by
    intro hid
    rw [← hid, hrow] at hnew
    exact hnew rfl
  refine { h with row := ⟨row, ?_, hempty⟩, style := ?_ }
  · rw [insert_at, if_neg hne, hrow]
  · rw [insert_at, if_neg hne, h.style]

theorem Emptied.saveName (h : Emptied db id) {name : Text} (hw : who = id → trim name = []) :
    Emptied (saveName db who name) id :=
  h.updateUser fun hid _ hrow => { hrow with displayName := hw hid }

theorem Emptied.saveStyle (h : Emptied db id) {style : Style} (hw : who ≠ id) :
    Emptied (saveStyle db who style) id :=
  { h with style := by rw [Accounts.saveStyle, insert_at, if_neg hw.symm, h.style] }

theorem Emptied.saveStatus (h : Emptied db id) {status : UserStatus} (hw : who ≠ id)
    (hc : saveStatus db who status now = some db') : Emptied db' id := by
  obtain ⟨fields, -, he⟩ := Option.map_eq_some_iff.mp hc
  cases he
  refine { h with status := ?_, statusFields := ?_ }
  · rw [insert_at, if_neg hw.symm, h.status]
  · change (if fields = [] then
      db.statusFields.erase who else db.statusFields.insert who fields)[id]? = none
    split
    · rw [erase_at, if_neg hw.symm, h.statusFields]
    · rw [insert_at, if_neg hw.symm, h.statusFields]

theorem Emptied.saveSound (h : Emptied db id) {sound : Text} (hw : who = id → sound = []) :
    Emptied (saveSound db who sound) id := by
  refine { h with entranceSound := ?_ }
  change (if sound = [] then
    db.entranceSounds.erase who else db.entranceSounds.insert who sound)[id]? = none
  split
  · rw [erase_at, h.entranceSound, ite_self]
  · next hsound =>
    have hne : id ≠ who := fun hid => hsound (hw hid.symm)
    rw [insert_at, if_neg hne, h.entranceSound]

theorem Emptied.saveTimeZone (h : Emptied db id) {zone : Text} (hw : who = id → zone = []) :
    Emptied (saveTimeZone db who zone) id :=
  h.updateUser fun hid _ hrow => { hrow with timeZone := by simp [hw hid] }

/-- A `PATCH /me` of somebody else's, or one that brings nothing. -/
theorem Emptied.patchMe (h : Emptied db id) {body : UpdateMe} {nameChanged : Bool}
    (hw : who = id → body.brings = false)
    (hc : patchMe outside db who body nameChanged now = some db') : Emptied db' id := by
  have hbrings (hid : who = id) := hw hid
  simp only [UpdateMe.brings, Bool.or_eq_false_iff] at hbrings
  obtain ⟨db₁, hname, hc⟩ := Option.bind_eq_some_iff.mp hc
  obtain ⟨db₂, hstatus, rfl⟩ := Option.map_eq_some_iff.mp hc
  have h₁ : Emptied db₁ id := by
    cases hd : body.displayName with
    | none =>
      rw [hd] at hname
      cases hname
      exact h
    | some name =>
      rw [hd] at hname
      obtain ⟨-, he⟩ := Option.ite_none_left_eq_some.mp hname
      cases he
      refine h.saveName fun hid => ?_
      simpa [hd] using (hbrings hid).1.1.1.1
  have hstyle : Emptied (patchStyle db₁ who body.style) id := by
    cases hs : body.style with
    | none => exact h₁
    | some style =>
      refine h₁.saveStyle fun hid => ?_
      have hno := (hbrings hid).1.1.1.2
      rw [hs] at hno
      exact absurd hno (by simp)
  have h₂ : Emptied db₂ id := by
    cases hs : body.status with
    | none =>
      rw [hs] at hstatus
      cases hstatus
      exact hstyle
    | some status =>
      rw [hs] at hstatus
      refine hstyle.saveStatus (fun hid => ?_) hstatus
      have hno := (hbrings hid).1.1.2
      rw [hs] at hno
      exact absurd hno (by simp)
  have hsound : Emptied (patchSound db₂ who body.entranceSound) id := by
    cases hs : body.entranceSound with
    | none => exact h₂
    | some sound =>
      refine h₂.saveSound fun hid => ?_
      simpa [hs] using (hbrings hid).1.2
  cases hz : body.timeZone with
  | none => exact hsound
  | some zone =>
    refine hsound.saveTimeZone fun hid => ?_
    simpa [hz] using (hbrings hid).2

theorem Emptied.changePassword (h : Emptied db id) {newHash : Text} (hw : who ≠ id) :
    Emptied (changePassword db who newHash now) id :=
  (h.updateUser fun hid => absurd hid hw).endSignIns

theorem Emptied.issueRefreshFamily (h : Emptied db id) {token : ℕ} (hw : who ≠ id) :
    Emptied (issueRefreshFamily db who token now) id := by
  refine { h with refreshTokens := fun held ht => ?_ }
  rcases List.mem_append.mp ht with ht | ht
  · exact h.refreshTokens held ht
  · rw [List.mem_singleton.mp ht]
    exact hw

/-- Rows that only have when they were revoked written over are still nobody else's. -/
theorem Emptied.revokes (h : Emptied db id) {f : RefreshToken → RefreshToken}
    (hf : ∀ held, (f held).userId = held.userId) :
    Emptied { db with refreshTokens := db.refreshTokens.map f } id := by
  refine { h with refreshTokens := fun token ht => ?_ }
  obtain ⟨held, hheld, rfl⟩ := List.mem_map.mp ht
  rw [hf]
  exact h.refreshTokens held hheld

/-- A token shown ends its family, or does what it does for the one whose it is. -/
theorem presentRefresh_eq_some {token : ℕ} {live : RefreshToken → Db}
    (hc : presentRefresh db token now live = some db') :
    ∃ held ∈ db.refreshTokens, db' = revokeFamily db held.familyId now ∨ db' = live held := by
  obtain ⟨held, hfind, hc⟩ := Option.bind_eq_some_iff.mp hc
  refine ⟨held, List.mem_of_find?_eq_some hfind, ?_⟩
  split at hc
  · exact Or.inl (Option.some.inj hc).symm
  · obtain ⟨-, hc⟩ := Option.ite_none_left_eq_some.mp hc
    obtain ⟨-, he⟩ := Option.ite_none_right_eq_some.mp hc
    exact Or.inr (Option.some.inj he).symm

theorem Emptied.revokeFamily (h : Emptied db id) {family : ℕ} :
    Emptied (revokeFamily db family now) id :=
  h.revokes fun held => by split <;> rfl

theorem Emptied.rotateRefresh (h : Emptied db id) {token new : ℕ}
    (hc : rotateRefresh db token new now = some db') : Emptied db' id := by
  obtain ⟨held, hheld, rfl | rfl⟩ := presentRefresh_eq_some hc
  · exact h.revokeFamily
  · have hspent := h.revokes
      (f := fun other : RefreshToken => if other.token = token then
        { other with revokedAt := some now } else other)
      fun other => by split <;> rfl
    refine { h with refreshTokens := fun other ht => ?_ }
    rcases List.mem_append.mp ht with ht | ht
    · exact hspent.refreshTokens other ht
    · rw [List.mem_singleton.mp ht]
      exact h.refreshTokens held hheld

theorem Emptied.shareFamily (h : Emptied db id) {token new : ℕ}
    (hc : shareFamily db token new now = some db') : Emptied db' id := by
  obtain ⟨held, hheld, rfl | rfl⟩ := presentRefresh_eq_some hc
  · exact h.revokeFamily
  · exact h.issueRefreshFamily (h.refreshTokens held hheld)

/-- A link is of no use to somebody who is not on the server any more. -/
theorem Emptied.useLink (h : Emptied db id) {newHash : Text}
    (hc : useLink db who newHash now = some db') :
    Emptied db' id := by
  obtain ⟨hactive, he⟩ := Option.ite_none_right_eq_some.mp hc
  cases he
  refine h.changePassword fun hid => ?_
  obtain ⟨held, hheld, hempty⟩ := h.row
  rw [hid, activeRow, hheld, Option.filter_some_neg (by simp [hempty.not_active])] at hactive
  exact absurd hactive (by simp)

theorem Emptied.advanceReadMarker (h : Emptied db id) {room : RoomId} {message : MessageId}
    (hw : who ≠ id) :
    Emptied (advanceReadMarker db who room message) id := by
  unfold Accounts.advanceReadMarker
  split
  · refine { h with readMarkers := fun marker hm => ?_ }
    obtain ⟨held, hheld, he⟩ := List.mem_map.mp hm
    have hne := h.readMarkers held hheld
    rw [← he]
    split <;> exact hne
  · refine { h with readMarkers := fun marker hm => ?_ }
    rcases List.mem_append.mp hm with hm | hm
    · exact h.readMarkers marker hm
    · rw [List.mem_singleton.mp hm]
      exact hw

theorem Emptied.say (h : Emptied db id) {message : Message} : Emptied (say db message) id :=
  { h with }

theorem Emptied.create (h : Emptied db id) {room : RoomId} {body : Text} {message : MessageId}
    (hw : who ≠ id) :
    Emptied (create db who room body message) id := h.say.advanceReadMarker hw

theorem Emptied.createPoll (h : Emptied db id) {room : RoomId} {question : Text}
    {choices : List Text} {days : ℕ}
    {message : MessageId} (hw : who ≠ id) :
    Emptied (createPoll db who room question choices days message now) id :=
  h.say.advanceReadMarker hw

theorem Emptied.updateRoom (h : Emptied db id) {room : RoomId} {motd : Option Text} {changed : Bool}
    {message : MessageId} : Emptied (updateRoom db who room motd changed message) id := by
  cases motd with
  | none => exact h
  | some text =>
    simp only [Accounts.updateRoom]
    split
    · exact h.say
    · exact h

/-- What closing a poll leaves: one message changed where it stands, and a line after the others. -/
theorem closePoll_eq_some {poll message : MessageId} {winners : List Text}
    (hc : closePoll db poll winners message now = some db') :
    ∃ asked closed line : Message, asked.deletedAt = none ∧ asked.quiet = false ∧
      closed.authorId = asked.authorId ∧ line.authorId = asked.authorId ∧ asked ∈ db.messages ∧
      db' = say { db with messages := db.messages.map fun held => if held = asked then
        closed else held } line := by
  obtain ⟨asked, hfind, hc⟩ := Option.bind_eq_some_iff.mp hc
  have hlive := List.find?_some hfind
  rw [Bool.and_eq_true, Option.isNone_iff_eq_none] at hlive
  split at hc
  · next question closesAt hline =>
    cases hc
    exact ⟨asked, { asked with line := .poll question closesAt (some now) },
      ⟨message, asked.roomId, asked.authorId, closedWords question winners, none, none,
        .pollClosed poll⟩,
      hlive.2, by simp [Message.quiet, hline, Line.quiet], rfl, rfl,
      List.mem_of_find?_eq_some hfind, rfl⟩
  · exact absurd hc (by simp)

theorem Emptied.closePoll (h : Emptied db id) {poll message : MessageId} {winners : List Text}
    (hc : closePoll db poll winners message now = some db') : Emptied db' id := by
  obtain ⟨asked, closed, line, -, -, -, -, -, rfl⟩ := closePoll_eq_some hc
  exact { h with }

theorem Emptied.addReaction (h : Emptied db id) {message : MessageId} {key : Text} :
    Emptied (addReaction db who message key) id := by
  simp only [Accounts.addReaction]
  split
  · exact { h with }
  · exact h

theorem Emptied.putNotifyRule (h : Emptied db id) {target : UserId} {room : Option RoomId}
    (hw : who ≠ id) :
    Emptied (putNotifyRule db who target room) id := by
  refine { h with notifyRules := fun rule hr => ?_ }
  rcases List.mem_append.mp hr with hr | hr
  · exact h.notifyRules rule (List.mem_filter.mp hr).1
  · rw [List.mem_singleton.mp hr]
    exact hw

theorem Emptied.block (h : Emptied db id) {blocked : UserId} (hw : who ≠ id) :
    Emptied (block db who blocked) id := by
  unfold Accounts.block
  split
  · exact h
  · refine { h with blocks := fun held hb => ?_ }
    rcases List.mem_append.mp hb with hb | hb
    · exact h.blocks held hb
    · rw [List.mem_singleton.mp hb]
      exact hw

/-- A removal finds nobody there who is still on the server. -/
theorem Emptied.removeUser (h : Emptied db id) : Emptied (removeUser db who now) id := by
  refine (h.updateUser fun _ row hrow => ?_).endSignIns
  rw [if_neg (by simp [hrow.not_active])]
  exact hrow

theorem Emptied.restoreUser (h : Emptied db id) (hw : who ≠ id) : Emptied (restoreUser db who) id :=
  h.updateUser fun hid => absurd hid hw

/-- The one switch is only turned for somebody on the server now. -/
theorem Emptied.setCohost (h : Emptied db id) {on : Bool} : Emptied (setCohost db who on) id := by
  refine h.updateUser fun _ row hrow => ?_
  rw [if_neg (by simp [hrow.not_active])]
  exact hrow

theorem Emptied.eraseWhatTheyWrote (h : Emptied db id) :
    Emptied (eraseWhatTheyWrote db who now) id := { h with }

theorem Emptied.leaveAll (h : Emptied db id) {dms : List (RoomId × MessageId)} :
    Emptied (leaveAll db who dms) id :=
  { h with }

/-- What goes of somebody is gone of everybody it was gone of. -/
theorem Emptied.dropTheirs (h : Emptied db id) : Emptied (dropTheirs db who) id where
  row := h.row
  style := by rw [Accounts.dropTheirs, erase_at, h.style, ite_self]
  status := by rw [Accounts.dropTheirs, erase_at, h.status, ite_self]
  statusFields := by rw [Accounts.dropTheirs, erase_at, h.statusFields, ite_self]
  entranceSound := by rw [Accounts.dropTheirs, erase_at, h.entranceSound, ite_self]
  readMarkers marker hm := h.readMarkers marker (List.mem_filter.mp hm).1
  notifyRules rule hr := h.notifyRules rule (List.mem_filter.mp hr).1
  blocks block hb := h.blocks block (List.mem_filter.mp hb).1
  refreshTokens token ht := h.refreshTokens token (List.mem_filter.mp ht).1

/-- A row that is empty, and all that hung off it dropped. -/
theorem emptied_dropTheirs (hrow : ∃ row : Row, db.users[id]? = some row ∧ row.Empty) :
    Emptied (dropTheirs db id) id where
  row := hrow
  style := by rw [dropTheirs, erase_at, if_pos rfl]
  status := by rw [dropTheirs, erase_at, if_pos rfl]
  statusFields := by rw [dropTheirs, erase_at, if_pos rfl]
  entranceSound := by rw [dropTheirs, erase_at, if_pos rfl]
  readMarkers marker hm := of_decide_eq_true (List.mem_filter.mp hm).2
  notifyRules rule hr := (of_decide_eq_true (List.mem_filter.mp hr).2).1
  blocks block hb := of_decide_eq_true (List.mem_filter.mp hb).2
  refreshTokens token ht := of_decide_eq_true (List.mem_filter.mp ht).2

theorem Row.emptied_empty (row : Row) : (row.emptied now).Empty where
  deactivated := by cases h : row.deactivatedAt <;> simp [Row.emptied, h]
  deleted := rfl
  displayName := rfl
  passwordHash := rfl
  timeZone := rfl
  cohost := rfl

theorem delete_eq_some {everything : Bool} {dms : List (RoomId × MessageId)}
    (hc : delete db who everything now dms = some db') : ∃ row : Row, db.users[who]? = some row ∧
      row.isHost = false ∧ row.deletedAt = none ∧
      db' = leaveAll (dropTheirs (if everything then
          eraseWhatTheyWrote
            (endSignIns (updateUser db who fun row => row.emptied now) who now) who now
        else endSignIns (updateUser db who fun row => row.emptied now) who now) who) who dms := by
  unfold delete at hc
  split at hc
  · exact absurd hc (by simp)
  · next row hrow =>
    obtain ⟨hno, he⟩ := Option.ite_none_left_eq_some.mp hc
    rw [Bool.or_eq_true, not_or, Bool.not_eq_true, Bool.not_eq_true, Option.isSome_eq_false_iff,
      Option.isNone_iff_eq_none] at hno
    exact ⟨row, hrow, hno.1, hno.2, (Option.some.inj he).symm⟩

/-- A deletion empties the account. -/
theorem delete_emptied {everything : Bool} {dms : List (RoomId × MessageId)}
    (hc : delete db id everything now dms = some db') : Emptied db' id := by
  obtain ⟨row, hrow, -, -, rfl⟩ := delete_eq_some hc
  apply Emptied.leaveAll
  apply emptied_dropTheirs
  refine ⟨{ row.emptied now with tokenGeneration := row.tokenGeneration + 1 }, ?_,
    { row.emptied_empty with }⟩
  have husers (db : Db) :
      (if everything = true then eraseWhatTheyWrote db id now else db).users = db.users := by
    cases everything <;> rfl
  rw [husers, endSignIns, updateUser, modify_at, if_pos rfl]
  change Option.map _ ((updateUser db id fun row => row.emptied now).users[id]?) = _
  rw [updateUser, modify_at, if_pos rfl, hrow]
  rfl

/-- Another account's deletion: the account's own, a second time, is refused. -/
theorem Emptied.delete (h : Emptied db id) {everything : Bool} {dms : List (RoomId × MessageId)}
    (hc : delete db who everything now dms = some db') : Emptied db' id := by
  obtain ⟨row, hrow, -, hlive, rfl⟩ := delete_eq_some hc
  have hne : who ≠ id := by
    intro hid
    obtain ⟨held, hheld, hempty⟩ := h.row
    rw [← hid, hrow, Option.some.injEq] at hheld
    have hdeleted := hempty.deleted
    rw [← hheld, hlive] at hdeleted
    exact absurd hdeleted (by simp)
  have hsigned : Emptied
      (Accounts.endSignIns (Accounts.updateUser db who fun row => row.emptied now) who now) id :=
    (h.updateUser fun hid => absurd hid hne).endSignIns
  apply Emptied.leaveAll
  apply Emptied.dropTheirs
  split
  · exact hsigned.eraseWhatTheyWrote
  · exact hsigned

/-- Whatever is written in time leaves a deleted account as it is. -/
theorem Emptied.commit (h : Emptied db id) {request : Request} {changed : Bool} {drawn : Drawn}
    (hin : request.InTime db) (hc : request.commit outside db changed drawn = some db') :
    Emptied db' id := by
  cases request with
  | register username displayName passwordHash style => exact h.register hc
  | patchMe bearer body =>
    refine h.patchMe (fun hid => ?_) hc
    by_contra hbrings
    have hlive := hin (Bool.not_eq_false _ ▸ hbrings)
    exact h.ne_of_kept hlive hid
  | changePassword bearer current newHash =>
    cases hc
    exact h.changePassword (h.ne_of_kept hin)
  | login username password => exact absurd hc (by simp [Request.commit])
  | useLink who newHash => exact h.useLink hc
  | refresh token => exact h.rotateRefresh hc
  | shareSignIn token => exact h.shareFamily hc
  | create bearer room body =>
    cases hc
    exact h.create (h.ne_of_kept hin)
  | updateRoom bearer room motd =>
    cases hc
    exact h.updateRoom
  | createPoll bearer room question choices days =>
    cases hc
    exact h.createPoll (h.ne_of_kept hin)
  | closePoll asker poll => exact h.closePoll hc
  | addReaction bearer message key =>
    cases hc
    exact h.addReaction
  | putNotifyRule bearer target room =>
    cases hc
    exact h.putNotifyRule (h.ne_of_kept hin)
  | putReadMarker bearer room message =>
    cases hc
    exact h.advanceReadMarker (h.ne_of_kept hin)
  | block bearer blocked =>
    cases hc
    exact h.block (h.ne_of_kept hin)
  | removeUser bearer who =>
    cases hc
    exact h.removeUser
  | restoreUser bearer who =>
    cases hc
    exact h.restoreUser (h.ne_of_kept hin)
  | setCohost bearer who on =>
    cases hc
    exact h.setCohost
  | deleteRemoved bearer who everything => exact h.delete hc
  | deleteMe bearer password everything => exact h.delete hc

end Keeps

section Wrote
variable {outside : Outside} {db db' : Db} {id who : UserId} {now : ℕ}

theorem Silent.of_eq (h : Silent db id) (he : db'.messages = db.messages) : Silent db' id := by
  intro message hm
  rw [he] at hm
  exact h message hm

theorem Silent.append (h : Silent db id) {messages : List Message}
    (he : db'.messages = db.messages ++ messages)
    (hn : ∀ message ∈ messages, message.authorId = id → message.quiet = true) : Silent db' id := by
  intro message hm hauthor
  rw [he] at hm
  rcases List.mem_append.mp hm with hm | hm
  · exact h message hm hauthor
  · exact Or.inr (hn message hm hauthor)

theorem Silent.say (h : Silent db id) {message : Message} (hw : message.authorId ≠ id) :
    Silent (say db message) id := by
  refine h.append rfl fun line hm hauthor => ?_
  rw [List.mem_singleton.mp hm] at hauthor
  exact absurd hauthor hw

/-- Nobody's poll is left to close, whose messages are all deleted or quiet. -/
theorem Silent.closePoll (h : Silent db id) {poll message : MessageId} {winners : List Text}
    (hc : closePoll db poll winners message now = some db') : Silent db' id := by
  obtain ⟨asked, closed, line, hlive, hquiet, hclosed, hline, hasked, rfl⟩ := closePoll_eq_some hc
  have hne : asked.authorId ≠ id := by
    intro hauthor
    have hsilent := h asked hasked hauthor
    rw [hlive, hquiet] at hsilent
    exact absurd hsilent (by simp)
  have hmarked : Silent { db with messages := db.messages.map fun held => if held = asked then
      closed else held } id := by
    intro other hm hauthor
    obtain ⟨held, hheld, rfl⟩ := List.mem_map.mp hm
    by_cases he : held = asked
    · rw [if_pos he, hclosed] at hauthor
      exact absurd hauthor hne
    · rw [if_neg he] at hauthor ⊢
      exact h held hheld hauthor
  exact hmarked.say (hline ▸ hne)

/-- What `THEIRS` takes of a message leaves nobody's undeleted who had none. -/
theorem Silent.eraseWhatTheyWrote (h : Silent db id) :
    Silent (eraseWhatTheyWrote db who now) id := by
  intro message hm hauthor
  obtain ⟨held, hheld, he⟩ := List.mem_map.mp hm
  subst he
  by_cases ht : theirs who held = true
  · rw [if_pos ht]
    exact Or.inl rfl
  · rw [if_neg ht] at hauthor ⊢
    exact h held hheld hauthor

/-- What is left undeleted of somebody once what they wrote is erased are the quiet lines. -/
theorem silent_eraseWhatTheyWrote : Silent (eraseWhatTheyWrote db id now) id := by
  intro message hm hauthor
  obtain ⟨held, -, he⟩ := List.mem_map.mp hm
  subst he
  by_cases ht : theirs id held = true
  · rw [if_pos ht]
    exact Or.inl rfl
  · rw [if_neg ht] at hauthor ⊢
    by_cases hdeleted : held.deletedAt.isSome = true
    · exact Or.inl hdeleted
    · refine Or.inr ?_
      by_contra hquiet
      apply ht
      rw [Bool.not_eq_true, Option.isSome_eq_false_iff] at hdeleted
      simp [theirs, hauthor, hdeleted, Bool.eq_false_iff.mpr hquiet]

theorem messages_dropTheirs (hm : db'.messages = db.messages) :
    (dropTheirs db' who).messages = db.messages := hm

theorem Silent.delete (h : Silent db id) {everything : Bool} {dms : List (RoomId × MessageId)}
    (hc : delete db who everything now dms = some db') : Silent db' id := by
  obtain ⟨row, -, -, -, rfl⟩ := delete_eq_some hc
  have hsigned : Silent (endSignIns (updateUser db who fun row => row.emptied now) who now) id :=
    h.of_eq rfl
  have herased (everything : Bool) : Silent (if everything = true then
      Accounts.eraseWhatTheyWrote
        (endSignIns (updateUser db who fun row => row.emptied now) who now) who now
    else endSignIns (updateUser db who fun row => row.emptied now) who now) id := by
    cases everything with
    | true => exact hsigned.eraseWhatTheyWrote
    | false => exact hsigned
  refine ((herased everything).of_eq (messages_dropTheirs rfl)).append rfl fun message hm _ => ?_
  obtain ⟨dm, -, rfl⟩ := List.mem_map.mp hm
  rfl

theorem delete_silent {dms : List (RoomId × MessageId)}
    (hc : delete db id true now dms = some db') :
    Silent db' id := by
  obtain ⟨row, -, -, -, rfl⟩ := delete_eq_some hc
  have herased : Silent (Accounts.eraseWhatTheyWrote
      (endSignIns (updateUser db id fun row => row.emptied now) id now) id now) id :=
        silent_eraseWhatTheyWrote
  refine (herased.of_eq (messages_dropTheirs rfl)).append rfl fun message hm _ => ?_
  obtain ⟨dm, -, rfl⟩ := List.mem_map.mp hm
  rfl

theorem messages_advanceReadMarker (room : RoomId) (message : MessageId) :
    (advanceReadMarker db who room message).messages = db.messages := by
  unfold advanceReadMarker
  split <;> rfl

theorem messages_patchMe {body : UpdateMe} {nameChanged : Bool}
    (hc : patchMe outside db who body nameChanged now = some db') : db'.messages = db.messages := by
  obtain ⟨db₁, hname, hc⟩ := Option.bind_eq_some_iff.mp hc
  obtain ⟨db₂, hstatus, rfl⟩ := Option.map_eq_some_iff.mp hc
  have h₁ : db₁.messages = db.messages := by
    cases hd : body.displayName with
    | none =>
      rw [hd] at hname
      cases hname
      rfl
    | some name =>
      rw [hd] at hname
      obtain ⟨-, he⟩ := Option.ite_none_left_eq_some.mp hname
      cases he
      rfl
  have hstyle : (patchStyle db₁ who body.style).messages = db₁.messages := by
    cases body.style <;> rfl
  have h₂ : db₂.messages = db₁.messages := by
    cases hs : body.status with
    | none =>
      rw [hs] at hstatus
      cases hstatus
      exact hstyle
    | some status =>
      rw [hs] at hstatus
      obtain ⟨fields, -, he⟩ := Option.map_eq_some_iff.mp hstatus
      cases he
      exact hstyle
  calc (patchTimeZone (patchSound db₂ who body.entranceSound) who body.timeZone).messages
      = (patchSound db₂ who body.entranceSound).messages := by cases body.timeZone <;> rfl
    _ = db₂.messages := by cases body.entranceSound <;> rfl
    _ = db.messages := h₂.trans h₁

/-- Nobody but the account itself could write anything of its. -/
theorem Silent.commit (h : Silent db id) (he : Emptied db id) {request : Request} {changed : Bool}
    {drawn : Drawn} (hin : request.InTime db)
    (hc : request.commit outside db changed drawn = some db') :
    Silent db' id := by
  -- Only its author's own request writes a message, and by the condition she is not deleted yet;
  -- one that writes none leaves all as silent as it was.
  cases request with
  | register username displayName passwordHash style =>
    obtain ⟨-, hc⟩ := Option.ite_none_left_eq_some.mp hc
    obtain ⟨-, heq⟩ := Option.ite_none_left_eq_some.mp hc
    cases heq
    exact h.of_eq rfl
  | patchMe bearer body => exact h.of_eq (messages_patchMe hc)
  | changePassword bearer current newHash =>
    cases hc
    exact h.of_eq rfl
  | login username password => exact absurd hc (by simp [Request.commit])
  | useLink who newHash =>
    obtain ⟨-, heq⟩ := Option.ite_none_right_eq_some.mp hc
    cases heq
    exact h.of_eq rfl
  | refresh token =>
    obtain ⟨held, -, rfl | rfl⟩ := presentRefresh_eq_some hc <;> exact h.of_eq rfl
  | shareSignIn token =>
    obtain ⟨held, -, rfl | rfl⟩ := presentRefresh_eq_some hc <;> exact h.of_eq rfl
  | create bearer room body =>
    cases hc
    have hsaid :
        Silent (Accounts.say db ⟨drawn.id, room, bearer.userId, body, none, none, .said⟩) id :=
      h.say (he.ne_of_kept hin)
    exact hsaid.of_eq (messages_advanceReadMarker room drawn.id)
  | updateRoom bearer room motd =>
    cases hc
    cases motd with
    | none => exact h
    | some text =>
      simp only [updateRoom]
      split
      · next hspeaks =>
        refine h.say (he.ne_of_kept (hin ?_))
        rw [Bool.and_eq_true] at hspeaks
        exact hspeaks.2
      · exact h
  -- A poll's message is its asker's, like a post.
  | createPoll bearer room question choices days =>
    cases hc
    have hasked : Silent
        (Accounts.say db ⟨drawn.id, room, bearer.userId, asWords question choices, none, none,
        .poll question (drawn.now + days * DAY_MS) none⟩) id := h.say (he.ne_of_kept hin)
    exact hasked.of_eq (messages_advanceReadMarker room drawn.id)
  | closePoll asker poll => exact h.closePoll hc
  | addReaction bearer message key =>
    cases hc
    refine h.of_eq ?_
    simp only [addReaction]
    split <;> rfl
  | putNotifyRule bearer target room =>
    cases hc
    exact h.of_eq rfl
  | putReadMarker bearer room message =>
    cases hc
    exact h.of_eq (messages_advanceReadMarker room message)
  | block bearer blocked =>
    cases hc
    refine h.of_eq ?_
    unfold block
    split <;> rfl
  | removeUser bearer who =>
    cases hc
    exact h.of_eq rfl
  | restoreUser bearer who =>
    cases hc
    exact h.of_eq rfl
  | setCohost bearer who on =>
    cases hc
    exact h.of_eq rfl
  | deleteRemoved bearer who everything => exact h.delete hc
  | deleteMe bearer password everything => exact h.delete hc

end Wrote

/-- What a deletion promises: it was asked for by its owner or was of a removed account, and the
account is empty since, of its messages too if they were to go. -/
structure Deletion.Holds (deletion : Deletion) (db : Db) : Prop where
  rightly : deletion.asked = true ∨ deletion.wasRemoved = true
  emptied : Emptied db deletion.id
  silent : deletion.everything = true → Silent db deletion.id

section Runs
variable {outside : Outside} {db db' : Db} {st st' : State} {drawn : Drawn}

/-- The deletion a transaction in time makes is one that holds. -/
theorem deletes_holds {request : Request} {changed : Bool} {deletion : Deletion}
    (hin : request.InTime db)
    (hc : request.commit outside db changed drawn = some db')
    (hd : request.deletes db = some deletion) :
    deletion.Holds db' := by
  cases request with
  | deleteRemoved bearer id everything =>
    cases hd
    refine ⟨Or.inr hin, delete_emptied hc, fun heverything => ?_⟩
    rw [show everything = true from heverything] at hc
    exact delete_silent hc
  | deleteMe bearer password everything =>
    cases hd
    refine ⟨Or.inl rfl, delete_emptied hc, fun heverything => ?_⟩
    rw [show everything = true from heverything] at hc
    exact delete_silent hc
  | register | patchMe | changePassword | login | useLink =>
    exact absurd hd (by simp [Request.deletes])
  | refresh | shareSignIn | create | updateRoom | createPoll =>
    exact absurd hd (by simp [Request.deletes])
  | closePoll | addReaction => exact absurd hd (by simp [Request.deletes])
  | putNotifyRule | putReadMarker | block => exact absurd hd (by simp [Request.deletes])
  | removeUser | restoreUser | setCohost => exact absurd hd (by simp [Request.deletes])

theorem step_holds {label : Label} (h : ∀ deletion ∈ st.deletions, deletion.Holds st.db)
    (hin : InTime st label)
    (hs : step outside st label = some st') :
    ∀ deletion ∈ st'.deletions, deletion.Holds st'.db := by
  rcases step_cases hs with ⟨-, hdb, hd⟩ | ⟨r, drawn, request, changed, db, rfl, hf, hc, rfl⟩ |
    ⟨r, token, now, request, id, rfl, hf, hdb, hd⟩
  -- no transaction: neither the rows nor the deletions change
  · rw [hdb, hd]
    exact h
  -- a request's own transaction
  · have hintime := hin ⟨request, .checked changed⟩ hf
    intro deletion hd
    rcases List.mem_append.mp hd with hd | hd
    · obtain ⟨hrightly, hemptied, hsilent⟩ := h deletion hd
      exact ⟨hrightly, hemptied.commit hintime hc,
        fun he => (hsilent he).commit hemptied hintime hc⟩
    · exact deletes_holds hintime hc (Option.mem_toList.mp hd)
  -- a sign-in's refresh token, after its request's transaction
  · rw [hd]
    intro deletion hdel
    obtain ⟨hrightly, hemptied, hsilent⟩ := h deletion hdel
    rw [hdb]
    exact ⟨hrightly,
      hemptied.issueRefreshFamily (hemptied.ne_of_kept (hin ⟨request, .issuing id⟩ hf id rfl)),
      fun he => (hsilent he).of_eq rfl⟩

/-- In every run whose transactions come in time, every deletion that committed was of a removed
account or asked for by its owner, and the account stays deleted and empty. -/
theorem stays_deleted {ls : List Label} (hin : (machine outside db).Meets InTime ls)
    (hr : (machine outside db).run ls = some st) :
    ∀ deletion ∈ st.deletions, deletion.Holds st.db :=
  (machine outside db).invariant_of_meets (I := fun st => ∀ deletion ∈ st.deletions,
    deletion.Holds st.db)
    (by simp [machine]) (fun _ _ _ hs hok hl => step_holds hs hok hl) hin hr

end Runs

section Ada

/-- What the server asks of others, in small: letters as they are, and a password for its own
hash. -/
def plainOutside : Outside :=
  ⟨⟨id, id, id⟩, fun name => !name.isEmpty, fun password hash => password == hash⟩

/-- A server with its host, and Ada on it. -/
def hostAndAda : Db where
  users := ((∅ : FMap UserId Row).insert 1 ⟨['h', 'o'], ['H'], ['h'], true, false, none, none, none,
    0⟩).insert 2
    ⟨['a', 'd', 'a'], ['A', 'd', 'a'], ['p'], false, false, none, none, none, 0⟩
  style := ∅
  status := ∅
  statusFields := ∅
  entranceSounds := ∅
  readMarkers := [⟨2, 5, 9⟩]
  notifyRules := []
  blocks := [⟨2, 1⟩]
  refreshTokens := [⟨2, 0, 0, 1000, none⟩]
  messages := [⟨9, 5, 2, ['h', 'i'], none, none, .said⟩]
  reactions := []

/-- Ada deletes her account, and everything she wrote. -/
def adaDeletes (r : ℕ) : List Label :=
  [.sends r (.deleteMe ⟨2, 0⟩ ['p'] true), .authenticates r, .checks r ⟨40, none⟩,
    .commits r ⟨50, 0, [], []⟩]

theorem stays_deleted_ada : ∃ st, (machine plainOutside hostAndAda).run (adaDeletes 0) = some st ∧
    st.deletions = [⟨2, true, false, true⟩] ∧ ∀ deletion ∈ st.deletions, deletion.Holds st.db := by
  have hrun : ((machine plainOutside hostAndAda).run (adaDeletes 0)).map State.deletions =
      some [⟨2, true, false, true⟩] := by decide +kernel
  obtain ⟨st, hst, hdeletions⟩ := Option.map_eq_some_iff.mp hrun
  exact ⟨st, hst, hdeletions, stays_deleted (by decide +kernel) hst⟩

/-- The name Ada was changing to, saved once her account was deleted. -/
def adaRenames : List Label :=
  [.sends 0 (.patchMe ⟨2, 0⟩ ⟨some ['Z', 'e', 'd'], none, none, none, none⟩), .authenticates 0,
    .checks 0 ⟨30, none⟩] ++ adaDeletes 1 ++ [.commits 0 ⟨60, 0, [], []⟩]

theorem deleted_with_a_name : ¬∀ outside db ls st, (machine outside db).run ls = some st →
    st.flights.isEmpty = true → ∀ deletion ∈ st.deletions, deletion.Holds st.db := by
  intro h
  have hrun : ((machine plainOutside hostAndAda).run adaRenames).map
      (fun st =>
        (st.flights.isEmpty, st.deletions, (st.db.users[2]? : Option Row).map Row.displayName)) =
        some (true, [⟨2, true, false, true⟩], some ['Z', 'e', 'd']) := by decide +kernel
  obtain ⟨st, hst, hends⟩ := Option.map_eq_some_iff.mp hrun
  obtain ⟨hover, hends⟩ := Prod.mk.inj hends
  obtain ⟨hdeletions, hname⟩ := Prod.mk.inj hends
  have hholds := h _ _ _ st hst hover ⟨2, true, false, true⟩
    (by rw [hdeletions]; exact List.mem_singleton_self _)
  obtain ⟨row, hrow, hempty⟩ := hholds.emptied.row
  rw [hrow, Option.map_some, hempty.displayName] at hname
  exact absurd hname (by decide)

end Ada
end Linger.Accounts
