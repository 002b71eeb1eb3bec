import Linger.SignInFamilies
import Linger.SignInEnding

/-! Invites and sign-in links: what each request that gives one, spends one or ends one checks,
and the transaction it then writes. Everything a transaction did is undone if it fails. -/
namespace Linger.Grants
open FiniteMap

variable {Hash : Type}

inductive ErrorCode where
  | inviteInvalid | inviteExpired | conflict | displayNameTaken | forbidden | notFound
  | validationFailed | internal
deriving DecidableEq

structure ApiError where
  code : ErrorCode
  message : String
deriving DecidableEq

def inviteInvalid : ApiError := ⟨.inviteInvalid, "That invite isn't valid."⟩

def inviteExpired : ApiError := ⟨.inviteExpired, "That invite has expired."⟩

def displayNameTaken : ApiError :=
  ⟨.displayNameTaken,
    "Someone here already goes by a name that looks like that. Try something a little different."⟩

def usernameTaken : ApiError := ⟨.conflict, "That username is taken."⟩

def internal : ApiError := ⟨.internal, "Something went wrong on the server."⟩

/-- A row of `invites`. -/
structure Invite where
  createdBy : ℕ
  expiresAt : Option ℕ
  maxUses : Option ℕ
  uses : ℕ
  revokedAt : Option ℕ

/-- A row of `sign_in_links`. -/
structure SignInLink where
  userId : ℕ
  madeBy : ℕ
  createdAt : ℕ
  expiresAt : ℕ
  usedAt : Option ℕ
  cancelledAt : Option ℕ

structure Names where
  username : String
  displayName : String

structure Db (Hash : Type) where
  signIns : SignIns.Db Hash
  names : FMap ℕ Names
  invites : FMap ℕ Invite
  links : FMap ℕ SignInLink

/-- `SIGN_IN_LINK_TTL_HOURS`. -/
def signInLinkTtlHours : ℕ := 24

/-- Why `code` can't let anybody in at `now`, or nothing when it can. -/
def inviteRefusal (db : Db Hash) (code now : ℕ) : Option ApiError :=
  match db.invites[code]? with
  | none => some inviteInvalid
  | some invite =>
    if invite.revokedAt.isSome then some inviteInvalid
    else if invite.expiresAt.any (· ≤ now) then some inviteExpired
    else if invite.maxUses.any (· ≤ invite.uses) then some inviteInvalid
    else none

/-- Why a link can't be used, or what it's for when it can. -/
inductive LinkState where
  | isOpen (userId : ℕ)
  | used
  | dead

def linkState (db : Db Hash) (code now : ℕ) : LinkState :=
  match db.links[code]? with
  | none => .dead
  | some link =>
    if link.usedAt.isSome then .used
    else
      match db.signIns.active link.userId with
      | none => .dead
      | some account =>
        if link.cancelledAt.isNone && !account.isHost && decide (now < link.expiresAt) then
          .isOpen link.userId
        else .dead

def linkRefused : LinkState → ApiError
  | .used => ⟨.forbidden,
      "That sign-in link has been used. If that wasn't you, ask the host for a new one."⟩
  | _ => ⟨.forbidden, "That sign-in link doesn't work any more. Ask the host for a new one."⟩

/-- A statement of a transaction, which any of them may fail. -/
def stmt (fault : Option ℕ) (n : ℕ) : Except ApiError Unit :=
  if fault = some n then .error internal else .ok ()

/-- `UPDATE invites SET uses = uses + 1 WHERE …`, where it finds a row. -/
def consume (db : Db Hash) (code now : ℕ) : Option (Db Hash) :=
  (db.invites[code]?).bind fun invite =>
    if invite.revokedAt.isNone && invite.expiresAt.all (now < ·) &&
        invite.maxUses.all (invite.uses < ·) then
      some { db with invites := db.invites.insert code { invite with uses := invite.uses + 1 } }
    else none

/-- Whether somebody who isn't removed goes by a name that looks like this one. -/
def looksTaken (meet : String → String → Bool) (db : Db Hash) (displayName : String) : Bool :=
  db.names.toList.any fun (userId, names) => (db.signIns.active userId).isSome &&
    (meet displayName names.displayName || meet displayName names.username)

/-- Whether the new row of `users` breaks one that is there. -/
def usernameThere (db : Db Hash) (username : String) : Bool :=
  (vals db.names).any fun names => decide (names.username = username)

def insertUser (db : Db Hash) (userId : ℕ) (names : Names) (passwordHash : Hash) :
    Db Hash :=
  { db with
    names := db.names.insert userId names
    signIns :=
      { db.signIns with users := db.signIns.users.insert userId ⟨passwordHash, 0, false, none⟩ } }

/-- Signing up's transaction. -/
def register (meet : String → String → Bool) (db : Db Hash) (code userId : ℕ) (names : Names)
    (passwordHash : Hash) (now : ℕ) (fault : Option ℕ) : Except ApiError (Db Hash) := do
  stmt fault 0
  match consume db code now with
  | none => .error ((inviteRefusal db code now).getD inviteInvalid)
  | some db => do
    stmt fault 1
    if looksTaken meet db names.displayName then .error displayNameTaken
    else do
      stmt fault 2
      if usernameThere db names.username || (db.signIns.users[userId]?).isSome then
        .error usernameTaken
      else do
        stmt fault 3
        .ok (insertUser db userId names passwordHash)

/-- Using a link: the transaction, with the new password. -/
def useLink (db : Db Hash) (code userId : ℕ) (passwordHash : Hash) (now : ℕ)
    (fault : Option ℕ) : Except ApiError (Db Hash) := do
  stmt fault 0
  match db.links[code]? with
  | none => .error (linkRefused (linkState db code now))
  | some link =>
    if link.userId = userId && link.usedAt.isNone && link.cancelledAt.isNone &&
        decide (now < link.expiresAt) then do
      stmt fault 1
      match db.signIns.active userId with
      | none => .error (linkRefused (linkState db code now))
      | some account =>
        if account.isHost then .error (linkRefused (linkState db code now))
        else do
          stmt fault 2
          .ok { db with
            signIns := SignIns.setPassword db.signIns userId passwordHash now
            links := db.links.insert code { link with usedAt := some now } }
    else .error (linkRefused (linkState db code now))

/-- Cancel every link that still works for somebody. -/
def cancelFor (links : FMap ℕ SignInLink) (userId now : ℕ) : FMap ℕ SignInLink :=
  links.map fun _ link =>
    if link.userId = userId && link.usedAt.isNone && link.cancelledAt.isNone then
      { link with cancelledAt := some now }
    else link

/-- Making a link: those that still work for the person are cancelled. -/
def make (db : Db Hash) (maker userId code now : ℕ) (fault : Option ℕ) :
    Except ApiError (Db Hash) := do
  stmt fault 0
  if (db.links[code]?).isSome then .error internal
  else do
    stmt fault 1
    .ok { db with
      links := (cancelFor db.links userId now).insert code
        ⟨userId, maker, now, now + signInLinkTtlHours * 3600000, none, none⟩ }

/-- Making an invite. -/
def create (db : Db Hash) (maker code : ℕ) (expiresInHours : Option ℕ)
    (maxUses : Option (Option ℕ)) (now : ℕ) (fault : Option ℕ) : Except ApiError (Db Hash) := do
  stmt fault 0
  if (db.invites[code]?).isSome then .error internal
  else
    .ok { db with
      invites := db.invites.insert code
        ⟨maker, expiresInHours.map (now + · * 3600000), maxUses.getD (some 1), 0, none⟩ }

def Invite.revoke (now : ℕ) (invite : Invite) : Invite :=
  { invite with revokedAt := invite.revokedAt.or (some now) }

def revoke (db : Db Hash) (code now : ℕ) (fault : Option ℕ) : Except ApiError (Db Hash) := do
  stmt fault 0
  .ok { db with invites := db.invites.modify code (Invite.revoke now) }

/-- Taking somebody off the server: their sign-ins, the invites they made and the links made
for them stop working. -/
def removeUser (db : Db Hash) (userId now : ℕ) (fault : Option ℕ) :
    Except ApiError (Db Hash) := do
  stmt fault 0
  .ok { db with
    signIns := SignIns.removeUser db.signIns userId now
    invites := db.invites.map fun _ invite =>
      if invite.createdBy = userId then invite.revoke now else invite
    links := cancelFor db.links userId now }

section Transactions
variable {meet : String → String → Bool} {db db' : Db Hash} {code userId maker now n : ℕ}
  {names : Names} {passwordHash : Hash} {fault : Option ℕ}

/-- What was written was written by a transaction no statement of which failed. -/
theorem stmt_bind {f : Unit → Except ApiError (Db Hash)}
    (h : (stmt fault n >>= f) = .ok db') : f () = .ok db' := by
  by_cases hfault : fault = some n
  · rw [stmt, if_pos hfault] at h
    cases h
  · rw [stmt, if_neg hfault] at h
    exact h

theorem register_ok
    (h : register meet db code userId names passwordHash now fault = .ok db') :
    ∃ invite, db.invites[code]? = some invite ∧ (∀ max ∈ invite.maxUses, invite.uses < max) ∧
      db' = insertUser { db with
        invites := db.invites.insert code { invite with uses := invite.uses + 1 } }
        userId names passwordHash := by
  rw [register] at h
  replace h := stmt_bind h
  split at h
  · cases h
  · next spent hspent =>
    obtain ⟨invite, hinvite, hwrote⟩ := Option.bind_eq_some_iff.mp hspent
    obtain ⟨hlive, he⟩ := Option.ite_none_right_eq_some.mp hwrote
    replace h := stmt_bind h
    split at h
    · cases h
    · replace h := stmt_bind h
      split at h
      · cases h
      · replace h := stmt_bind h
        cases h
        cases he
        refine ⟨invite, hinvite, fun max hmax => ?_, rfl⟩
        have hall := (Bool.and_eq_true_iff.mp hlive).2
        rw [Option.mem_def.mp hmax] at hall
        simpa using hall

theorem useLink_ok (h : useLink db code userId passwordHash now fault = .ok db') :
    ∃ link account, db.links[code]? = some link ∧ link.userId = userId ∧ link.usedAt = none ∧
      link.cancelledAt = none ∧ now < link.expiresAt ∧ db.signIns.active userId = some account ∧
      account.isHost = false ∧
      db' = { db with
        signIns := SignIns.setPassword db.signIns userId passwordHash now
        links := db.links.insert code { link with usedAt := some now } } := by
  rw [useLink] at h
  replace h := stmt_bind h
  split at h
  · cases h
  · next link hlink =>
    split at h
    · next hguard =>
      simp only [Bool.and_eq_true, decide_eq_true_eq, Option.isNone_iff_eq_none] at hguard
      obtain ⟨⟨⟨huser, hused⟩, hcancelled⟩, hnow⟩ := hguard
      replace h := stmt_bind h
      split at h
      · cases h
      · next account hactive =>
        split at h
        · cases h
        · next hhost =>
          replace h := stmt_bind h
          cases h
          exact ⟨link, account, hlink, huser, hused, hcancelled, hnow, hactive,
            Bool.not_eq_true _ ▸ hhost, rfl⟩
    · cases h

theorem make_ok (h : make db maker userId code now fault = .ok db') :
    db.links[code]? = none ∧ db' = { db with
      links := (cancelFor db.links userId now).insert code
        ⟨userId, maker, now, now + signInLinkTtlHours * 3600000, none, none⟩ } := by
  rw [make] at h
  replace h := stmt_bind h
  split at h
  · cases h
  · next hnone =>
    replace h := stmt_bind h
    cases h
    exact ⟨Option.not_isSome_iff_eq_none.mp hnone, rfl⟩

theorem create_ok {expiresInHours : Option ℕ} {maxUses : Option (Option ℕ)}
    (h : create db maker code expiresInHours maxUses now fault = .ok db') :
    db.invites[code]? = none ∧ db' = { db with
      invites := db.invites.insert code
        ⟨maker, expiresInHours.map (now + · * 3600000), maxUses.getD (some 1), 0, none⟩ } := by
  rw [create] at h
  replace h := stmt_bind h
  split at h
  · cases h
  · next hnone =>
    cases h
    exact ⟨Option.not_isSome_iff_eq_none.mp hnone, rfl⟩

theorem revoke_ok (h : revoke db code now fault = .ok db') :
    db' = { db with invites := db.invites.modify code (Invite.revoke now) } := by
  replace h := stmt_bind h
  cases h
  rfl

theorem removeUser_ok (h : removeUser db userId now fault = .ok db') :
    db' = { db with
      signIns := SignIns.removeUser db.signIns userId now
      invites := db.invites.map fun _ invite =>
        if invite.createdBy = userId then invite.revoke now else invite
      links := cancelFor db.links userId now } := by
  replace h := stmt_bind h
  cases h
  rfl

theorem cancelFor_at (links : FMap ℕ SignInLink) (userId now code : ℕ) :
    (cancelFor links userId now)[code]? = (links[code]?).map fun link =>
      if link.userId = userId && link.usedAt.isNone && link.cancelledAt.isNone then
        { link with cancelledAt := some now }
      else link := by
  rw [cancelFor, Std.ExtTreeMap.getElem?_map]

end Transactions

end Linger.Grants
