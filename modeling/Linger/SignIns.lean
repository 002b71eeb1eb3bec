import Linger.StepMachine
import Linger.FiniteMap

/-! What the server stores of accounts and of their sign-ins, and what each operation on
sign-ins does to it in its one transaction. A token is known by its hash, and a new token
and a new family are the next number there is. -/
namespace Linger.SignIns
open FiniteMap

universe u
variable {Hash : Type u}

/-- What sign-ins depend on of a row of `users`. -/
structure Account (Hash : Type u) where
  passwordHash : Hash
  tokenGeneration : ℕ
  isHost : Bool
  deactivatedAt : Option ℕ

/-- A row of `refresh_tokens`. -/
structure RefreshToken where
  userId : ℕ
  familyId : ℕ
  tokenHash : ℕ
  expiresAt : ℕ
  revokedAt : Option ℕ
  createdAt : ℕ
deriving DecidableEq

structure Db (Hash : Type u) where
  users : FMap ℕ (Account Hash)
  refreshTokens : List RefreshToken
  made : ℕ

/-- `REFRESH_TTL_MS`. -/
def refreshTtlMs : ℕ := 30 * 24 * 60 * 60 * 1000

/-- `SWEEP_BATCH`. -/
def sweepBatch : ℕ := 500

/-- The account of somebody who isn't removed. -/
def Db.active (db : Db Hash) (userId : ℕ) : Option (Account Hash) :=
  (db.users[userId]?).filter fun account => account.deactivatedAt.isNone

def Db.stored (db : Db Hash) (token : ℕ) : Option RefreshToken :=
  db.refreshTokens.find? fun row => row.tokenHash == token

/-- `UPDATE refresh_tokens SET revoked_at = ? WHERE … AND revoked_at IS NULL`. -/
def Db.revokes (db : Db Hash) (now : ℕ) (p : RefreshToken → Bool) : Db Hash :=
  { db with
    refreshTokens := db.refreshTokens.map fun row =>
      if p row && row.revokedAt.isNone then { row with revokedAt := some now } else row }

/-- The insert that every token starts with. -/
def Db.inserts (db : Db Hash) (userId familyId now : ℕ) : Db Hash :=
  { db with
    refreshTokens := db.refreshTokens ++
      [⟨userId, familyId, db.made, now + refreshTtlMs, none, now⟩]
    made := db.made + 1 }

/-- Start a new token family. -/
def issueRefreshFamily (db : Db Hash) (userId now : ℕ) : Db Hash := db.inserts userId db.made now

inductive RefreshOutcome where
  | rotated (userId generation newToken : ℕ)
  | rejected
deriving DecidableEq

/-- Rotate a refresh token. -/
def rotateRefresh (db : Db Hash) (token now : ℕ) : RefreshOutcome × Db Hash :=
  match db.stored token with
  | none => (.rejected, db)
  | some row =>
    -- reuse of a rotated token kills the family
    if row.revokedAt.isSome then (.rejected, db.revokes now fun r => r.familyId == row.familyId)
    else if row.expiresAt ≤ now then (.rejected, db)
    else
      match db.active row.userId with
      | none => (.rejected, db)
      | some account =>
        (.rotated row.userId account.tokenGeneration db.made,
          (db.revokes now fun r => r.tokenHash == token).inserts row.userId row.familyId now)

inductive ShareOutcome where
  | refused
  | held
  | shared (userId newToken : ℕ)
deriving DecidableEq

/-- A new family for the person whose current token this is, which isn't spent. `allow` is
asked once the person is known. -/
def shareFamily (db : Db Hash) (token now : ℕ) (allow : ℕ → Bool) : ShareOutcome × Db Hash :=
  match db.stored token with
  | none => (.refused, db)
  | some row =>
    if row.revokedAt.isSome then (.refused, db.revokes now fun r => r.familyId == row.familyId)
    else if row.expiresAt ≤ now then (.refused, db)
    else
      match db.active row.userId with
      | none => (.refused, db)
      | some _ =>
        if allow row.userId then
          (.shared row.userId db.made, db.inserts row.userId db.made now)
        else (.held, db)

/-- Logout: revoke the presented token's whole family. -/
def revokeFamily (db : Db Hash) (token now : ℕ) : Db Hash :=
  match db.stored token with
  | none => db
  | some row => db.revokes now fun r => r.familyId == row.familyId

/-- End every sign-in this account has. -/
def endSignIns (db : Db Hash) (userId now : ℕ) : Db Hash :=
  { db.revokes now (fun r => r.userId == userId) with
    users := db.users.modify userId fun account =>
      { account with tokenGeneration := account.tokenGeneration + 1 } }

/-- What removing somebody does to their account and sign-ins. -/
def removeUser (db : Db Hash) (userId now : ℕ) : Db Hash :=
  endSignIns { db with
    users := db.users.modify userId fun account =>
      { account with deactivatedAt := account.deactivatedAt.or (some now) } } userId now

/-- The sweep's tokens. Which of those past their time a batch takes is not said. -/
def sweepTokens (db : Db Hash) (now : ℕ) (batch : List ℕ) : Db Hash :=
  { db with
    refreshTokens := db.refreshTokens.filter fun row =>
      !(decide (row.expiresAt ≤ now) && (batch.take sweepBatch).contains row.tokenHash) }

/-- A verified access token. -/
structure Bearer where
  userId : ℕ
  generation : ℕ
deriving DecidableEq

/-- Whether a verified token's sign-in is still going. -/
def stillSignedIn (db : Db Hash) (bearer : Bearer) : Bool :=
  (db.active bearer.userId).any fun account => decide (account.tokenGeneration ≤ bearer.generation)

/-- Whether `rotate_refresh` would take the token. -/
def accepts (db : Db Hash) (token now : ℕ) : Bool := (rotateRefresh db token now).1 != .rejected

section Lemmas
variable {db : Db Hash} {row : RefreshToken} {userId familyId token now : ℕ}
  {p : RefreshToken → Bool} {account : Account Hash}

theorem active_eq_some : db.active userId = some account ↔
    db.users[userId]? = some account ∧ account.deactivatedAt = none := by
  rw [Db.active, Option.filter_eq_some_iff, Option.isNone_iff_eq_none]

@[simp] theorem inserts_made : (db.inserts userId familyId now).made = db.made + 1 := rfl

theorem mem_inserts : row ∈ (db.inserts userId familyId now).refreshTokens ↔
    row ∈ db.refreshTokens ∨ row = ⟨userId, familyId, db.made, now + refreshTtlMs, none, now⟩ := by
  rw [Db.inserts, List.mem_append, List.mem_singleton]

/-- What revoking leaves of a row: the row as it was and no longer wanted, or the row with
the time it was revoked. -/
theorem mem_revokes (h : row ∈ (db.revokes now p).refreshTokens) :
    ∃ old ∈ db.refreshTokens, old.userId = row.userId ∧ old.familyId = row.familyId ∧
      old.tokenHash = row.tokenHash ∧ old.expiresAt = row.expiresAt ∧
      (row.revokedAt = none → old = row ∧ p row = false) ∧
      (old.revokedAt.isSome = true → old = row) := by
  obtain ⟨old, hold, rfl⟩ := List.mem_map.mp h
  refine ⟨old, hold, ?_⟩
  rcases Bool.eq_false_or_eq_true (p old) with hp | hp
  · cases hrevoked : old.revokedAt <;> simp [hp, hrevoked]
  · simp [hp]

theorem revokes_tokens : (db.revokes now p).refreshTokens.map RefreshToken.tokenHash =
    db.refreshTokens.map RefreshToken.tokenHash := by
  rw [Db.revokes, List.map_map]
  apply List.map_congr_left
  intro row _
  simp only [Function.comp_apply]
  split <;> rfl

theorem stored_mem (h : db.stored token = some row) :
    row ∈ db.refreshTokens ∧ row.tokenHash = token :=
  ⟨List.mem_of_find?_eq_some h, by simpa using List.find?_some h⟩

/-- With no two rows of one token, the row found is the one there is. -/
theorem stored_of_mem (hnodup : (db.refreshTokens.map RefreshToken.tokenHash).Nodup)
    (hmem : row ∈ db.refreshTokens) : db.stored row.tokenHash = some row := by
  cases h : db.stored row.tokenHash with
  | none => exact absurd (List.find?_eq_none.mp h row hmem) (by simp)
  | some found =>
    obtain ⟨hfound, htoken⟩ := stored_mem h
    rw [List.inj_on_of_nodup_map hnodup hfound hmem htoken]

theorem accepts_iff : accepts db token now = true ↔
    ∃ row account, db.stored token = some row ∧ row.revokedAt = none ∧ now < row.expiresAt ∧
      db.active row.userId = some account := by
  rw [accepts, rotateRefresh, bne_iff_ne]
  constructor
  · intro h
    split at h
    · exact absurd rfl h
    · next row hrow =>
      split at h
      · exact absurd rfl h
      · next hlive =>
        split at h
        · exact absurd rfl h
        · next hnow =>
          split at h
          · exact absurd rfl h
          · next account hactive =>
            exact ⟨row, account, hrow, Option.not_isSome_iff_eq_none.mp hlive, by omega, hactive⟩
  · rintro ⟨row, account, hrow, hlive, hnow, hactive⟩
    rw [hrow]
    simp [hlive, Nat.not_le.mpr hnow, hactive]

/-- What rotating does: a row that was found and may be is spent for a new one of its family,
a spent one takes its family along, and nothing is written otherwise. -/
theorem rotate_cases :
    (∃ row account, db.stored token = some row ∧ row.revokedAt = none ∧ now < row.expiresAt ∧
      db.active row.userId = some account ∧
      rotateRefresh db token now = (.rotated row.userId account.tokenGeneration db.made,
        (db.revokes now fun r => r.tokenHash == token).inserts row.userId row.familyId now)) ∨
    (∃ row, db.stored token = some row ∧ row.revokedAt.isSome = true ∧
      rotateRefresh db token now = (.rejected, db.revokes now fun r => r.familyId == row.familyId))
        ∨
    ((∀ row, db.stored token = some row → row.revokedAt = none ∧
        (row.expiresAt ≤ now ∨ db.active row.userId = none)) ∧
      rotateRefresh db token now = (.rejected, db)) := by
  cases hrow : db.stored token with
  | none => exact .inr (.inr ⟨fun row h => (by cases h), by rw [rotateRefresh, hrow]⟩)
  | some row =>
    rcases Bool.eq_false_or_eq_true row.revokedAt.isSome with hspent | hlive
    · exact .inr (.inl ⟨row, rfl, hspent, by rw [rotateRefresh, hrow]; simp only [hspent, if_true]⟩)
    · have hlive := Option.isSome_eq_false_iff.mp hlive |> Option.isNone_iff_eq_none.mp
      by_cases hnow : row.expiresAt ≤ now
      · refine .inr (.inr ⟨?_, by rw [rotateRefresh, hrow]; simp [hlive, hnow]⟩)
        intro r hr
        cases hr
        exact ⟨hlive, .inl hnow⟩
      · cases hactive : db.active row.userId with
        | none =>
          refine .inr (.inr ⟨?_, by rw [rotateRefresh, hrow]; simp [hlive, hnow, hactive]⟩)
          intro r hr
          cases hr
          exact ⟨hlive, .inr hactive⟩
        | some account =>
          exact .inl ⟨row, account, rfl, hlive, by omega, hactive,
            by rw [rotateRefresh, hrow]; simp [hlive, hnow, hactive]⟩

/-- What asking for a share sign-in does, in the same way. -/
theorem share_cases {allow : ℕ → Bool} :
    (∃ row account, db.stored token = some row ∧ row.revokedAt = none ∧ now < row.expiresAt ∧
      db.active row.userId = some account ∧
      shareFamily db token now allow =
        (.shared row.userId db.made, db.inserts row.userId db.made now)) ∨
    (∃ row, db.stored token = some row ∧ row.revokedAt.isSome = true ∧
      shareFamily db token now allow =
        (.refused, db.revokes now fun r => r.familyId == row.familyId)) ∨
    ((∀ row, db.stored token = some row → row.revokedAt = none) ∧
      ((shareFamily db token now allow).1 = .refused ∨ (shareFamily db token now allow).1 = .held) ∧
      (shareFamily db token now allow).2 = db) := by
  cases hrow : db.stored token with
  | none =>
    refine .inr (.inr ⟨fun row h => (by cases h), ?_⟩)
    rw [shareFamily, hrow]
    exact ⟨.inl rfl, rfl⟩
  | some row =>
    rcases Bool.eq_false_or_eq_true row.revokedAt.isSome with hspent | hlive
    · exact .inr (.inl ⟨row, rfl, hspent, by rw [shareFamily, hrow]; simp only [hspent, if_true]⟩)
    · have hlive := Option.isSome_eq_false_iff.mp hlive |> Option.isNone_iff_eq_none.mp
      have hone : ∀ r, some row = some r → r.revokedAt = none := by
        rintro r ⟨⟩
        exact hlive
      by_cases hnow : row.expiresAt ≤ now
      · exact .inr (.inr ⟨hone, by rw [shareFamily, hrow]; simp [hlive, hnow]⟩)
      · cases hactive : db.active row.userId with
        | none => exact .inr (.inr ⟨hone, by rw [shareFamily, hrow]; simp [hlive, hnow, hactive]⟩)
        | some account =>
          rcases Bool.eq_false_or_eq_true (allow row.userId) with hallow | hallow
          · exact .inl ⟨row, account, rfl, hlive, by omega, hactive,
              by rw [shareFamily, hrow]; simp [hlive, hnow, hactive, hallow]⟩
          · exact .inr (.inr ⟨hone, by rw [shareFamily, hrow]; simp [hlive, hnow, hactive, hallow]⟩)

end Lemmas

end Linger.SignIns
