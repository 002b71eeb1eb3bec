import Linger.AccountRequests

/-! Whether two members look alike: what each transaction leaves of the names that are seen, and
just when it leaves them apart. -/
namespace Linger.Accounts
open FiniteMap StepMachine Names

/-- The two names somebody goes by. -/
structure Named where
  username : Text
  displayName : Text
deriving DecidableEq

/-- What somebody on the server now goes by. -/
def named (db : Db) (id : UserId) : Option Named :=
  (activeRow db id).map fun row => ⟨row.username, row.displayName⟩

/-- The display name of the one looks like neither name of the other. -/
def Unlike (outside : Outside) (a b : Named) : Prop :=
  looksLike outside a.displayName b.displayName = false ∧
    looksLike outside a.displayName b.username = false

/-- No two different active members look alike. -/
def Apart (outside : Outside) (db : Db) : Prop :=
  ∀ a b na nb, a ≠ b → named db a = some na → named db b = some nb → Unlike outside na nb

/-- Nobody active but `me` would look like somebody with these names, or the other way round. -/
def Clear (outside : Outside) (db : Db) (me : UserId) (names : Named) : Prop :=
  ∀ b nb, b ≠ me → named db b = some nb → Unlike outside names nb ∧ Unlike outside nb names

theorem looksLike_comm (outside : Outside) (name other : Text) :
    looksLike outside name other = looksLike outside other name := Shapes.meet_comm _ _

section Named
variable {outside : Outside} {db db' : Db} {id me : UserId}

theorem named_eq_some {n : Named} :
    named db id = some n ↔ ∃ row : Row, db.users[id]? = some row ∧ row.active = true ∧
      row.username = n.username ∧ row.displayName = n.displayName := by
  cases n
  simp only [named, activeRow, Option.map_eq_some_iff, Option.filter_eq_some_iff, Named.mk.injEq,
    and_assoc]

/-- What `refuse_look_alike` lets through: a display name nobody active but `me` could be taken
for. -/
theorem refuseLookAlike_eq_false {name : Text} {me : Option UserId} :
    refuseLookAlike outside db name me = false ↔ ∀ b nb, me ≠ some b → named db b = some nb →
      looksLike outside name nb.displayName = false ∧
        looksLike outside name nb.username = false := by
  rw [refuseLookAlike, List.any_eq_false]
  constructor
  · intro h b nb hb hn
    obtain ⟨row, hrow, hactive, hu, hd⟩ := named_eq_some.mp hn
    have hmem :
        (b, row) ∈ db.users.toList.filter fun entry => entry.2.active && me != some entry.1 := by
      rw [List.mem_filter, Std.ExtTreeMap.mem_toList_iff_getElem?_eq_some]
      exact ⟨hrow, by simp [hactive, hb]⟩
    have hno := h _ hmem
    rw [Bool.or_eq_true, not_or, Bool.not_eq_true, Bool.not_eq_true] at hno
    rwa [← hd, ← hu]
  · intro h entry hentry
    obtain ⟨hrow, hp⟩ := List.mem_filter.mp hentry
    rw [Std.ExtTreeMap.mem_toList_iff_getElem?_eq_some] at hrow
    obtain ⟨hactive, hb⟩ : entry.2.active = true ∧ me ≠ some entry.1 := by simpa using hp
    have hno := h entry.1 ⟨entry.2.username, entry.2.displayName⟩ hb
      (named_eq_some.mpr ⟨entry.2, hrow, hactive, rfl, rfl⟩)
    rw [hno.1, hno.2]
    exact Bool.false_ne_true

/-- Names that are seen no more leave the others as they were. -/
theorem Apart.fewer (h : Apart outside db)
    (hn : ∀ b nb, named db' b = some nb → named db b = some nb) :
    Apart outside db' := fun a b na nb hab ha hb => h a b na nb hab (hn a na ha) (hn b nb hb)

/-- One account given names, the others as they were: all are apart just when nobody else looks
so. -/
theorem Apart.names (h : Apart outside db) {names : Named} (hme : named db' me = some names)
    (hothers : ∀ b, b ≠ me → named db' b = named db b) :
    Apart outside db' ↔ Clear outside db me names := by
  constructor
  · intro hall b nb hb hn
    rw [← hothers b hb] at hn
    exact ⟨hall me b names nb hb.symm hme hn, hall b me nb names hb hn hme⟩
  · intro hclear a b na nb hab ha hb
    by_cases ham : a = me
    · rw [ham, hme, Option.some.injEq] at ha
      have hbm : b ≠ me := fun hbm => hab (ham.trans hbm.symm)
      rw [hothers b hbm] at hb
      exact ha ▸ (hclear b nb hbm hb).1
    · rw [hothers a ham] at ha
      by_cases hbm : b = me
      · rw [hbm, hme, Option.some.injEq] at hb
        exact hb ▸ (hclear a na ham ha).2
      · rw [hothers b hbm] at hb
        exact h a b na nb hab ha hb

/-- The names that have to be clear of the others' once the display name has been let through: the
username has not. -/
theorem clear_iff {names : Named}
    (h : refuseLookAlike outside db names.displayName (some me) = false) :
    Clear outside db me names ↔
      ∀ b nb, b ≠ me → named db b = some nb →
        looksLike outside nb.displayName names.username = false := by
  constructor
  · intro hclear b nb hb hn
    exact (hclear b nb hb hn).2.2
  · intro hu b nb hb hn
    obtain ⟨hd, hn'⟩ :=
      refuseLookAlike_eq_false.mp h b nb (fun he => hb (Option.some.inj he).symm) hn
    refine ⟨⟨hd, hn'⟩, ?_, hu b nb hb hn⟩
    rw [looksLike_comm]
    exact hd

theorem named_users (h : db'.users = db.users) : named db' id = named db id := by
  simp only [named, activeRow, h]

/-- A change to one account's row, as the names see it. -/
theorem named_updateUser (f : Row → Row) (b : UserId) :
    named (updateUser db id f) b =
      if b = id then ((db.users[b]?).map f).bind fun row =>
        if row.active then some ⟨row.username, row.displayName⟩ else none
      else named db b := by
  have hat : ∀ row : Option Row,
      (row.filter Row.active).map (fun row => (⟨row.username, row.displayName⟩ : Named)) =
      row.bind fun row => if row.active then some ⟨row.username, row.displayName⟩ else none := by
    intro row
    cases row with
    | none => rfl
    | some row => by_cases ha : row.active = true <;> simp [ha]
  simp only [named, activeRow, updateUser]
  rw [modify_at]
  split
  · exact hat _
  · rfl

/-- A change that keeps what the names are read off. -/
theorem named_updateUser_same {f : Row → Row}
    (hf : ∀ row, (f row).active = row.active ∧ (f row).username = row.username ∧
      (f row).displayName = row.displayName)
    (b : UserId) : named (updateUser db id f) b = named db b := by
  rw [named_updateUser]
  split
  · cases hrow : (db.users[b]? : Option Row) with
    | none => simp [named, activeRow, hrow]
    | some row =>
      obtain ⟨ha, hu, hd⟩ := hf row
      by_cases hact : row.active = true <;> simp [named, activeRow, hrow, ha, hu, hd, hact]
  · rfl

theorem named_endSignIns (now : ℕ) (b : UserId) : named (endSignIns db id now) b = named db b :=
  named_updateUser_same (f := fun row => { row with tokenGeneration := row.tokenGeneration + 1 })
    (fun _ => ⟨rfl, rfl, rfl⟩) b

end Named

section Transactions
variable {outside : Outside} {db db' : Db} {id : UserId} {now : ℕ}

theorem named_register {username displayName passwordHash : Text} {style : Style}
    (h : register outside db id username displayName passwordHash style = some db') :
    refuseLookAlike outside db (trim displayName) none = false ∧
      named db' id = some ⟨username, trim displayName⟩ ∧ ∀ b, b ≠ id →
        named db' b = named db b := by
  obtain ⟨hr, h⟩ := Option.ite_none_left_eq_some.mp h
  obtain ⟨-, he⟩ := Option.ite_none_left_eq_some.mp h
  cases he
  refine ⟨Bool.eq_false_iff.mpr hr, ?_, fun b hb => ?_⟩
  · simp [named, activeRow, Row.active]
  · simp [named, activeRow, insert_at, hb]

theorem named_saveName (name : Text) (b : UserId) :
    named (saveName db id name) b =
      if b = id then (named db b).map fun names => ⟨names.username, trim name⟩ else named db b := by
  rw [saveName, named_updateUser]
  split
  · cases hrow : (db.users[b]? : Option Row) with
    | none => simp [named, activeRow, hrow]
    | some row => by_cases ha : row.active = true <;> simp_all [named, activeRow, Row.active]
  · rfl

theorem saveStatus_users {status : UserStatus} (h : saveStatus db id status now = some db') :
    db'.users = db.users := by
  obtain ⟨fields, -, he⟩ := Option.map_eq_some_iff.mp h
  cases he
  rfl

/-- The row `patch_me` leaves under a name. -/
def nameSaved (db : Db) (id : UserId) : Option Text → Db
  | some name => saveName db id name
  | none => db

/-- What `patch_me` does to the names: the name it was sent, let through when it was held to be a
new one. -/
theorem named_patchMe {body : UpdateMe} {nameChanged : Bool}
    (h : patchMe outside db id body nameChanged now = some db') :
    (∀ name, body.displayName = some name → nameChanged = true →
      refuseLookAlike outside db (trim name) (some id) = false) ∧
    ∀ b, named db' b = named (nameSaved db id body.displayName) b := by
  obtain ⟨db₁, hname, h⟩ := Option.bind_eq_some_iff.mp h
  obtain ⟨db₂, hstatus, rfl⟩ := Option.map_eq_some_iff.mp h
  have hstyle : (patchStyle db₁ id body.style).users = db₁.users := by
    cases body.style <;> rfl
  have hmid : db₂.users = db₁.users := by
    rw [← hstyle]
    cases hs : body.status with
    | none =>
      rw [hs] at hstatus
      cases hstatus
      rfl
    | some status =>
      rw [hs] at hstatus
      exact saveStatus_users hstatus
  have hsound : (patchSound db₂ id body.entranceSound).users = db₁.users := by
    rw [← hmid]
    cases body.entranceSound <;> rfl
  have hzone (b : UserId) :
      named (patchTimeZone (patchSound db₂ id body.entranceSound) id body.timeZone) b =
      named db₁ b := by
    rw [← named_users hsound]
    cases body.timeZone with
    | none => rfl
    | some zone =>
      exact named_updateUser_same
        (f := fun row => { row with timeZone := (some zone).filter fun zone => zone ≠ [] })
        (fun _ => ⟨rfl, rfl, rfl⟩) b
  cases hd : body.displayName with
  | none =>
    rw [hd] at hname
    cases hname
    exact ⟨by simp, hzone⟩
  | some name =>
    rw [hd] at hname
    obtain ⟨hr, he⟩ := Option.ite_none_left_eq_some.mp hname
    cases he
    refine ⟨fun other hother hchanged => ?_, hzone⟩
    cases hother
    rw [hchanged, Bool.true_and] at hr
    exact Bool.eq_false_iff.mpr hr

theorem named_removeUser (b : UserId) :
    named (removeUser db id now) b = if b = id then none else named db b := by
  rw [removeUser, named_endSignIns, named_updateUser]
  split
  · cases (db.users[b]? : Option Row) with
    | none => rfl
    | some row => cases ha : row.deactivatedAt <;> simp [ha, Row.active]
  · rfl

/-- Somebody let back in goes by what the row still says. -/
theorem named_restoreUser (b : UserId) : named (restoreUser db id) b =
    if b = id then (db.users[b]? : Option Row).map fun row => ⟨row.username, row.displayName⟩
      else named db b := by
  rw [restoreUser, named_updateUser]
  split
  · cases (db.users[b]? : Option Row) with
    | none => rfl
    | some row => simp [Row.active]
  · rfl

theorem named_changePassword (newHash : Text) (b : UserId) :
    named (changePassword db id newHash now) b = named db b := by
  rw [changePassword, named_endSignIns]
  exact named_updateUser_same (f := fun row => { row with passwordHash := newHash })
    (fun _ => ⟨rfl, rfl, rfl⟩) b

theorem named_setCohost (on : Bool) (b : UserId) : named (setCohost db id on) b = named db b := by
  refine named_updateUser_same (fun row => ?_) b
  split <;> exact ⟨rfl, rfl, rfl⟩

theorem named_delete {everything : Bool} {dms : List (RoomId × MessageId)}
    (h : delete db id everything now dms = some db') (b : UserId) :
    named db' b = if b = id then none else named db b := by
  unfold delete at h
  split at h
  · exact absurd h (by simp)
  · obtain ⟨-, he⟩ := Option.ite_none_left_eq_some.mp h
    cases he
    have husers (db : Db) : named (leaveAll
        (dropTheirs (if everything then eraseWhatTheyWrote db id now else db) id) id dms) b =
        named db b := by
      cases everything <;> exact named_users rfl
    rw [husers, named_endSignIns, named_updateUser]
    split
    · cases hrow : (db.users[b]? : Option Row) with
      | none => rfl
      | some row => cases hd : row.deactivatedAt <;> simp [Row.emptied, Row.active, hd]
    · rfl

theorem users_advanceReadMarker (room : RoomId) (message : MessageId) :
    (advanceReadMarker db id room message).users = db.users := by
  unfold advanceReadMarker
  split <;> rfl

theorem users_presentRefresh {token : ℕ} {live : RefreshToken → Db}
    (h : presentRefresh db token now live = some db')
    (hl : ∀ held, (live held).users = db.users) : db'.users = db.users := by
  obtain ⟨held, -, h⟩ := Option.bind_eq_some_iff.mp h
  split at h
  · cases h
    rfl
  · obtain ⟨-, h⟩ := Option.ite_none_left_eq_some.mp h
    obtain ⟨-, he⟩ := Option.ite_none_right_eq_some.mp h
    rw [← Option.some.inj he, hl]

theorem users_updateRoom (room : RoomId) (motd : Option Text) {changed : Bool}
    {message : MessageId} :
    (updateRoom db id room motd changed message).users = db.users := by
  cases motd with
  | none => rfl
  | some text =>
    simp only [updateRoom]
    split <;> rfl

theorem users_closePoll {poll message : MessageId} {winners : List Text}
    (h : closePoll db poll winners message now = some db') : db'.users = db.users := by
  obtain ⟨asked, -, h⟩ := Option.bind_eq_some_iff.mp h
  split at h
  · cases h
    rfl
  · exact absurd h (by simp)

theorem users_addReaction (message : MessageId) (key : Text) :
    (addReaction db id message key).users = db.users := by
  simp only [addReaction]
  split <;> rfl

theorem users_block (blocked : UserId) : (block db id blocked).users = db.users := by
  unfold block
  split <;> rfl

end Transactions

/-- When a transaction leaves members apart. A display name that is new to its owner is checked in
it; a username, a name said to be the one held, and the names a restore brings back are not. -/
def Request.KeepsApart (outside : Outside) (db : Db) (nameChanged : Bool) (drawn : Drawn) :
    Request → Prop
  | .register username _ _ _ =>
    ∀ b nb, b ≠ drawn.id → named db b = some nb → looksLike outside nb.displayName username = false
  | .patchMe bearer body => ∀ name, body.displayName = some name → nameChanged = false →
      (named db bearer.userId).isSome = true →
      refuseLookAlike outside db (trim name) (some bearer.userId) = false
  | .restoreUser _ id => ∀ row : Row, db.users[id]? = some row →
      Clear outside db id ⟨row.username, row.displayName⟩
  | _ => True

/-- The condition on a step: that the transaction it makes, if it makes one, leaves members
apart. -/
def KeepsApart (outside : Outside) (st : State) : Label → Prop
  | .commits r drawn =>
    ∀ request nameChanged, st.flights[r]? = some ⟨request, .checked nameChanged⟩ →
      request.KeepsApart outside st.db nameChanged drawn
  | _ => True

section Runs
variable {outside : Outside} {db db' : Db} {st st' : State} {drawn : Drawn}

/-- Names as they were, or fewer of them, leave members apart. -/
theorem Apart.iff_true (h : Apart outside db)
    (hn : ∀ b nb, named db' b = some nb → named db b = some nb) :
    Apart outside db' ↔ True := iff_true_intro (h.fewer hn)

theorem Apart.iff_true_users (h : Apart outside db) (hn : db'.users = db.users) :
    Apart outside db' ↔ True := by
  apply h.iff_true
  intro b nb hb
  rwa [named_users hn] at hb

theorem Apart.iff_true_gone {id : UserId} (h : Apart outside db)
    (hn : ∀ b, named db' b = if b = id then none else named db b) : Apart outside db' ↔ True := by
  apply h.iff_true
  intro b nb hb
  rw [hn] at hb
  exact (Option.ite_none_left_eq_some.mp hb).2

theorem register_apart {username displayName passwordHash : Text} {style : Style}
    (h : Apart outside db)
    (hc : register outside db drawn.id username displayName passwordHash style = some db') :
    Apart outside db' ↔
      (Request.register username displayName passwordHash style).KeepsApart outside db false
        drawn := by
  obtain ⟨hr, hme, hothers⟩ := named_register hc
  rw [h.names hme hothers]
  apply clear_iff
  rw [refuseLookAlike_eq_false] at hr ⊢
  intro b nb _ hn
  exact hr b nb (by simp) hn

/-- A name saved for somebody active is either let through or said to be the one held. -/
theorem patchMe_apart {bearer : Bearer} {body : UpdateMe} {nameChanged : Bool} {now : ℕ}
    (h : Apart outside db)
    (hc : patchMe outside db bearer.userId body nameChanged now = some db') :
    Apart outside db' ↔ (Request.patchMe bearer body).KeepsApart outside db nameChanged drawn := by
  obtain ⟨hchecked, hnamed⟩ := named_patchMe hc
  cases hd : body.displayName with
  | none =>
    rw [hd] at hnamed
    have hno : (Request.patchMe bearer body).KeepsApart outside db nameChanged drawn := by
      intro name hname
      rw [hd] at hname
      exact absurd hname (by simp)
    exact iff_of_true (h.fewer fun b nb hb => by rwa [hnamed] at hb) hno
  | some name =>
    have hsaved (b : UserId) : named db' b = if b = bearer.userId then
        (named db b).map fun names => ⟨names.username, trim name⟩ else named db b := by
      rw [hnamed, hd]
      exact named_saveName name b
    cases hme : named db bearer.userId with
    | none =>
      -- Nobody sees the name of an account that is no longer active.
      have hsame (b : UserId) : named db' b = named db b := by
        rw [hsaved]
        split
        · next hb => rw [hb, hme, Option.map_none]
        · rfl
      refine iff_of_true (h.fewer fun b nb hb => by rwa [hsame] at hb) fun other _ _ hseen => ?_
      rw [hme] at hseen
      exact absurd hseen (by simp)
    | some names =>
      have hnow : named db' bearer.userId = some ⟨names.username, trim name⟩ := by
        rw [hsaved, if_pos rfl, hme, Option.map_some]
      rw [h.names hnow fun b hb => by rw [hsaved, if_neg hb]]
      have hheld (b : UserId) (nb : Named) (hb : b ≠ bearer.userId) (hn : named db b = some nb) :
          looksLike outside nb.displayName names.username = false :=
        (h b bearer.userId nb names hb hn hme).2
      constructor
      · intro hclear other hother _ _
        rw [hd, Option.some.injEq] at hother
        rw [← hother, refuseLookAlike_eq_false]
        intro b nb hb hn
        have hne : b ≠ bearer.userId := fun he => hb (congrArg some he.symm)
        exact (hclear b nb hne hn).1
      · intro hkeeps
        have hthrough : refuseLookAlike outside db (trim name) (some bearer.userId) = false := by
          cases hchanged : nameChanged with
          | true => exact hchecked name hd hchanged
          | false => exact hkeeps name hd hchanged (by rw [hme]; rfl)
        exact (@clear_iff outside db bearer.userId ⟨names.username, trim name⟩ hthrough).mpr hheld

theorem restoreUser_apart {bearer : Bearer} {id : UserId} {nameChanged : Bool}
    (h : Apart outside db) :
    Apart outside (restoreUser db id) ↔
      (Request.restoreUser bearer id).KeepsApart outside db nameChanged drawn := by
  cases hrow : (db.users[id]? : Option Row) with
  | none =>
    have hno : (Request.restoreUser bearer id).KeepsApart outside db nameChanged drawn := by
      intro row hr
      rw [hrow] at hr
      exact absurd hr (by simp)
    refine iff_of_true (h.fewer fun b nb hb => ?_) hno
    rw [named_restoreUser] at hb
    split at hb
    · next he =>
      rw [he, hrow] at hb
      exact absurd hb (by simp)
    · exact hb
  | some row =>
    have hme : named (restoreUser db id) id = some ⟨row.username, row.displayName⟩ := by
      rw [named_restoreUser, if_pos rfl, hrow, Option.map_some]
    have hothers (b : UserId) (hb : b ≠ id) : named (restoreUser db id) b = named db b := by
      rw [named_restoreUser, if_neg hb]
    rw [h.names hme hothers]
    constructor
    · intro hclear other hother
      rw [hrow, Option.some.injEq] at hother
      rw [← hother]
      exact hclear
    · intro hkeeps
      exact hkeeps row hrow

/-- Just when a transaction leaves members apart. -/
theorem commit_apart {request : Request} {nameChanged : Bool} (h : Apart outside db)
    (hc : request.commit outside db nameChanged drawn = some db') :
    Apart outside db' ↔ request.KeepsApart outside db nameChanged drawn := by
  cases request with
  | register username displayName passwordHash style => exact register_apart h hc
  | patchMe bearer body => exact patchMe_apart h hc
  | restoreUser bearer id =>
    cases hc
    exact restoreUser_apart h
  | changePassword bearer current newHash =>
    cases hc
    apply h.iff_true
    intro b nb hb
    rwa [named_changePassword] at hb
  | login username password => exact absurd hc (by simp [Request.commit])
  | useLink id newHash =>
    obtain ⟨-, he⟩ := Option.ite_none_right_eq_some.mp hc
    cases he
    apply h.iff_true
    intro b nb hb
    rwa [named_changePassword] at hb
  | refresh token => exact h.iff_true_users (users_presentRefresh hc fun _ => rfl)
  | shareSignIn token => exact h.iff_true_users (users_presentRefresh hc fun _ => rfl)
  | create bearer room body =>
    cases hc
    exact h.iff_true_users (users_advanceReadMarker room drawn.id)
  | updateRoom bearer room motd =>
    cases hc
    exact h.iff_true_users (users_updateRoom room motd)
  | createPoll bearer room question choices days =>
    cases hc
    exact h.iff_true_users (users_advanceReadMarker room drawn.id)
  | closePoll asker poll => exact h.iff_true_users (users_closePoll hc)
  | addReaction bearer message key =>
    cases hc
    exact h.iff_true_users (users_addReaction message key)
  | putNotifyRule bearer target room =>
    cases hc
    exact h.iff_true_users rfl
  | putReadMarker bearer room message =>
    cases hc
    exact h.iff_true_users (users_advanceReadMarker room message)
  | block bearer blocked =>
    cases hc
    exact h.iff_true_users (users_block blocked)
  | removeUser bearer id =>
    cases hc
    exact h.iff_true_gone named_removeUser
  | setCohost bearer id on =>
    cases hc
    apply h.iff_true
    intro b nb hb
    rwa [named_setCohost] at hb
  | deleteRemoved bearer id everything => exact h.iff_true_gone (named_delete hc)
  | deleteMe bearer password everything => exact h.iff_true_gone (named_delete hc)

theorem step_apart {label : Label} (h : Apart outside st.db)
    (hs : step outside st label = some st') :
    Apart outside st'.db ↔ KeepsApart outside st label := by
  rcases step_cases hs with ⟨hno, hdb, -⟩ | ⟨r, drawn, request, nameChanged, db, rfl, hf, hc, rfl⟩ |
    ⟨r, token, now, request, id, rfl, -, hdb, -⟩
  · rw [hdb]
    refine iff_of_true h ?_
    cases label with
    | commits r drawn => exact absurd rfl (hno r drawn)
    | sends | authenticates | checks | issues | ends => trivial
  · rw [show (st.committed r request drawn db).db = db from rfl, commit_apart h hc]
    constructor
    · intro hk other changed hother
      rw [hf, Option.some.injEq, Flight.mk.injEq, Stage.checked.injEq] at hother
      rw [← hother.1, ← hother.2]
      exact hk
    · intro hk
      exact hk request nameChanged hf
  · rw [hdb]
    exact iff_of_true (h.fewer fun b nb hb => hb) trivial

/-- In every run of a server whose members are apart, they stay apart just when each sign-up takes a
username no active member's display name looks like, each name sent as the one held, from an account
that is active, is still one that nobody else is taken for, and each restore brings back names that
are apart from the active members'. -/
theorem names_apart {ls : List Label} (h : Apart outside db)
    (hr : (machine outside db).run ls = some st) :
    (∀ ms ns s, ls = ms ++ ns → (machine outside db).run ms = some s → Apart outside s.db) ↔
      (machine outside db).Meets (KeepsApart outside) ls :=
  (machine outside db).states_iff_meets h (fun _ _ _ => step_apart) hr

end Runs

section SignUp

/-- Letters as they are, but for their case. -/
def plainLetters : Outside where
  unicode := ⟨id, fun text => text.map Char.toLower, id⟩
  displayNameFits name := 1 ≤ (trim name).length && (trim name).length ≤ 32
  verify password hash := password == hash

def noAccounts : Db := ⟨∅, ∅, ∅, ∅, ∅, [], [], [], [], [], []⟩

/-- A server with one member, who goes by Matt. -/
def matt : Db :=
  { noAccounts with
    users := (∅ : FMap UserId Row).insert 1
      ⟨['m', 'g'], ['M', 'a', 't', 't'], ['h'], true, false, none, none, none, 0⟩ }

def defaultStyle : Style := ⟨[], 400, false, [], none, 0, none⟩

/-- Somebody signs up as Zoe, under a username of their choosing. -/
def signUp (username : Text) : List Label :=
  [.sends 0 (.register username ['Z', 'o', 'e'] ['h'] defaultStyle), .authenticates 0,
    .checks 0 ⟨0, none⟩, .commits 0 ⟨1, 2, [], []⟩, .issues 0 7 1]

theorem matt_apart : Apart plainLetters matt := by
  have hone (a : UserId) (na : Named) (h : named matt a = some na) : a = 1 := by
    obtain ⟨row, hrow, -⟩ := named_eq_some.mp h
    by_contra hne
    simp [matt, insert_at, hne] at hrow
  intro a b na nb hab ha hb
  exact absurd ((hone a na ha).trans (hone b nb hb).symm) hab

theorem names_apart_signUp :
    ∃ st, (machine plainLetters matt).run (signUp ['z', 'o', 'e']) = some st ∧
    ((∀ ms ns s, signUp ['z', 'o', 'e'] = ms ++ ns → (machine plainLetters matt).run ms = some s →
      Apart plainLetters s.db) ↔
        (machine plainLetters matt).Meets (KeepsApart plainLetters) (signUp ['z', 'o', 'e'])) := by
  obtain ⟨st, hst⟩ := Option.isSome_iff_exists.mp
    (show ((machine plainLetters matt).run (signUp ['z', 'o', 'e'])).isSome =
      true by decide +kernel)
  exact ⟨st, hst, names_apart matt_apart hst⟩

/-- Somebody signs up as `matt` beside a Matt: sign-up checks the display name only. -/
theorem username_taken_alike :
    ¬∀ outside db ls st, Apart outside db → (machine outside db).run ls = some st →
    Apart outside st.db := by
  intro h
  have hrun : ((machine plainLetters matt).run (signUp ['m', 'a', 't', 't'])).map
      (fun st => (named st.db 1, named st.db 2)) =
        some (some ⟨['m', 'g'], ['M', 'a', 't', 't']⟩,
          some ⟨['m', 'a', 't', 't'], ['Z', 'o', 'e']⟩) := by
    decide +kernel
  obtain ⟨st, hst, hnamed⟩ := Option.map_eq_some_iff.mp hrun
  obtain ⟨hone, htwo⟩ := Prod.mk.inj hnamed
  have hunlike := h plainLetters matt _ st matt_apart hst 1 2 _ _ (by decide) hone htwo
  exact absurd hunlike.2 (by decide +kernel)

end SignUp
end Linger.Accounts
