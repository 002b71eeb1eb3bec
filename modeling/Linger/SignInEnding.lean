import Linger.SignIns
import Linger.TaskPool

/-! Ending an account's sign-ins while people sign in to it: what each token that still works
afterwards was issued for. -/
namespace Linger.SignIns
open FiniteMap StepMachine TaskPool

universe u v
variable {Password : Type u} {Hash : Type v}

/-- What a token was issued for, itself or the one it derives from: a login with a password,
or the answer to the request that moved the account to this generation. -/
inductive Root (Password : Type u) where
  | login (password : Password)
  | answer (generation : ℕ)

/-- Where a request stands. -/
inductive Task (Password : Type u) (Hash : Type v) where
  | verifies (userId : ℕ) (hash : Hash) (password : Password)
  | readsGeneration (userId : ℕ) (root : Root Password)
  | issuesFamily (userId : ℕ) (root : Root Password)
  | mints (bearer : Bearer) (root : Option (Root Password))

/-- What is stored and what is under way, and with each token what it was issued for. -/
structure Server (Password : Type u) (Hash : Type v) where
  db : Db Hash
  tasks : FMap ℕ (Task Password Hash)
  bearers : List (Bearer × Option (Root Password))
  roots : FMap ℕ (Root Password)

inductive Event (Password : Type u) (Hash : Type v) where
  | login (i userId : ℕ) (password : Password)
  | refresh (i token now : ℕ)
  | share (token now : ℕ) (allow : ℕ → Bool)
  | changePassword (i userId : ℕ) (newHash : Hash) (now : ℕ)
  | useLink (i userId : ℕ) (newHash : Hash) (now : ℕ)
  | remove (userId now : ℕ)
  | restore (userId : ℕ)
  | fails (i : ℕ)
  | step (i now : ℕ)

/-- A new password, and the end of every sign-in the account had. -/
def setPassword (db : Db Hash) (userId : ℕ) (newHash : Hash) (now : ℕ) : Db Hash :=
  endSignIns { db with
    users :=
      db.users.modify userId fun account => { account with passwordHash := newHash } } userId now

def restoreUser (db : Db Hash) (userId : ℕ) : Db Hash :=
  { db with users := db.users.modify userId fun account => { account with deactivatedAt := none } }

namespace Server

def goOn (st : Server Password Hash) (i : ℕ) (task : Task Password Hash) : Server Password Hash :=
  { st with tasks := st.tasks.insert i task }

def ends (st : Server Password Hash) (i : ℕ) : Server Password Hash :=
  { st with tasks := st.tasks.erase i }

/-- A new refresh token, issued for what the token it derives from was. -/
def derives (st : Server Password Hash) (db : Db Hash) (token newToken : ℕ) :
    Server Password Hash :=
  { st with db := db, roots := st.roots.alter newToken fun _ => st.roots[token]? }

def mints (st : Server Password Hash) (bearer : Bearer) (root : Option (Root Password)) :
    Server Password Hash :=
  { st with bearers := st.bearers ++ [(bearer, root)] }

/-- The password is set, and the request goes on to answer with a sign-in. -/
def setsPassword (st : Server Password Hash) (i userId : ℕ) (account : Account Hash)
    (newHash : Hash)
    (now : ℕ) : Server Password Hash :=
  goOn { st with db := setPassword st.db userId newHash now } i
    (.readsGeneration userId (.answer (account.tokenGeneration + 1)))

end Server

/-- A request's next statement. -/
def advance (verify : Password → Hash → Bool) (st : Server Password Hash) (i now : ℕ) :
    Task Password Hash → Server Password Hash
  | .verifies userId hash password =>
    if verify password hash then st.goOn i (.readsGeneration userId (.login password))
    else st.ends i
  | .readsGeneration userId root =>
    match st.db.users[userId]? with
    | none => st.ends i
    | some account =>
      (st.mints ⟨userId, account.tokenGeneration⟩ (some root)).goOn i (.issuesFamily userId root)
  | .issuesFamily userId root =>
    ({ st with
      db := issueRefreshFamily st.db userId now
      roots := st.roots.alter st.db.made fun _ => some root } : Server Password Hash).ends i
  | .mints bearer root => (st.mints bearer root).ends i

def Server.step (verify : Password → Hash → Bool) (st : Server Password Hash) :
    Event Password Hash → Option (Server Password Hash)
  | .login i userId password =>
    if (st.tasks[i]?).isSome then none
    else
      match st.db.active userId with
      | none => some st
      | some account => some (st.goOn i (.verifies userId account.passwordHash password))
  | .refresh i token now =>
    if (st.tasks[i]?).isSome then none
    else
      match rotateRefresh st.db token now with
      | (.rotated userId generation newToken, db) =>
        some ((st.derives db token newToken).goOn i (.mints ⟨userId, generation⟩ st.roots[token]?))
      | (.rejected, db) => some { st with db := db }
  | .share token now allow =>
    match shareFamily st.db token now allow with
    | (.shared _ newToken, db) => some (st.derives db token newToken)
    | (_, db) => some { st with db := db }
  | .changePassword i userId newHash now =>
    if (st.tasks[i]?).isSome then none
    else (st.db.users[userId]?).map fun account => st.setsPassword i userId account newHash now
  | .useLink i userId newHash now =>
    if (st.tasks[i]?).isSome then none
    else
      match st.db.active userId with
      | none => some st
      | some account =>
        if account.isHost then some st else some (st.setsPassword i userId account newHash now)
  | .remove userId now => some { st with db := removeUser st.db userId now }
  | .restore userId => some { st with db := restoreUser st.db userId }
  | .fails i => some (st.ends i)
  | .step i now => (st.tasks[i]?).map (advance verify st i now)

/-- Nobody has signed in yet. -/
def machine (verify : Password → Hash → Bool) (users : FMap ℕ (Account Hash)) :
    Machine (Server Password Hash) (Event Password Hash) :=
  ⟨⟨⟨users, [], 0⟩, ∅, [], ∅⟩, Server.step verify⟩

/-- Issued since the account's sign-ins were last ended: for a password that is the account's
now, or in answer to the request that ended them. -/
def Since (verify : Password → Hash → Bool) (account : Account Hash) : Option (Root Password) → Prop
  | some (.login password) => verify password account.passwordHash = true
  | some (.answer generation) => generation = account.tokenGeneration
  | none => False

/-- A login, or an answer with a sign-in, goes on to read the generation or to issue its family
only while nothing has ended the account's sign-ins since it was let in, or its password is
the account's still. -/
def IssuesSoon (verify : Password → Hash → Bool) (st : Server Password Hash) :
    Event Password Hash → Prop
  | .step i _ =>
    match st.tasks[i]? with
    | some (.readsGeneration userId root) | some (.issuesFamily userId root) =>
      ∀ account ∈ st.db.users[userId]?, Since verify account (some root)
    | _ => True
  | _ => True

/-- A verified token that works, or will once its account is restored, was issued since. -/
def Bearer.Right (verify : Password → Hash → Bool) (db : Db Hash) (bearer : Bearer)
    (root : Option (Root Password)) : Prop :=
  ∀ account, db.users[bearer.userId]? = some account →
    bearer.generation ≤ account.tokenGeneration ∧
      (bearer.generation = account.tokenGeneration → Since verify account root)

def Task.Right (verify : Password → Hash → Bool) (db : Db Hash) : Task Password Hash → Prop
  | .mints bearer root => bearer.Right verify db root
  | _ => True

/-- What every token that isn't ended was issued for. -/
structure Kept (verify : Password → Hash → Bool) (st : Server Password Hash) : Prop where
  below : ∀ row ∈ st.db.refreshTokens, row.tokenHash < st.db.made
  rows : ∀ row ∈ st.db.refreshTokens, row.revokedAt = none → ∀ account,
    st.db.users[row.userId]? = some account → Since verify account st.roots[row.tokenHash]?
  bearers : ∀ e ∈ st.bearers, Bearer.Right verify st.db e.1 e.2
  tasks : All st.tasks (Task.Right verify st.db)

section Steps
variable {verify : Password → Hash → Bool} {st st' : Server Password Hash} {db : Db Hash}
  {i userId familyId token now : ℕ} {account : Account Hash} {f : Account Hash → Account Hash}
  {task : Task Password Hash} {root : Option (Root Password)} {bearer : Bearer}

namespace Kept

theorem goOn (h : Kept verify st) (i : ℕ) (htask : task.Right verify st.db) :
    Kept verify (st.goOn i task) :=
  ⟨h.below, h.rows, h.bearers, h.tasks.insert i htask⟩

theorem ends (h : Kept verify st) (i : ℕ) : Kept verify (st.ends i) :=
  ⟨h.below, h.rows, h.bearers, h.tasks.erase i⟩

theorem mints (h : Kept verify st) (hbearer : bearer.Right verify st.db root) :
    Kept verify (st.mints bearer root) := by
  refine ⟨h.below, h.rows, fun e he => ?_, h.tasks⟩
  rcases List.mem_append.mp he with hold | hnew
  · exact h.bearers e hold
  · cases List.mem_singleton.mp hnew
    exact hbearer

/-- Rows are revoked, and nothing else. -/
theorem revokes (h : Kept verify st) (now : ℕ) (p : RefreshToken → Bool) :
    Kept verify { st with db := st.db.revokes now p } := by
  refine ⟨fun row hrow => ?_, fun row hrow hlive => ?_, h.bearers, h.tasks⟩
  · obtain ⟨old, hold, -, -, htoken, -⟩ := mem_revokes hrow
    rw [← htoken]
    exact h.below old hold
  · obtain ⟨old, hold, -, -, -, -, hsame, -⟩ := mem_revokes hrow
    cases (hsame hlive).1
    exact h.rows row hold hlive

/-- A new token is put in, for what was issued since. -/
theorem inserts (h : Kept verify st) (userId familyId now : ℕ)
    (hroot : ∀ account, st.db.users[userId]? = some account → Since verify account root) :
    Kept verify { st with
      db := st.db.inserts userId familyId now
      roots := st.roots.alter st.db.made fun _ => root } := by
  refine ⟨fun row hrow => ?_, fun row hrow hlive account haccount => ?_, h.bearers, h.tasks⟩
  · rcases mem_inserts.mp hrow with hin | rfl
    · exact Nat.lt_succ_of_lt (h.below row hin)
    · exact Nat.lt_succ_self _
  · dsimp only
    rw [alter_at]
    rcases mem_inserts.mp hrow with hin | rfl
    · have := h.below row hin
      rw [if_neg (by omega)]
      exact h.rows row hin hlive account haccount
    · rw [if_pos rfl]
      exact hroot account haccount

/-- Every sign-in of an account ends, with whatever else is written of the account. -/
theorem ending (h : Kept verify st) (userId now : ℕ)
    (hf : ∀ account, (f account).tokenGeneration = account.tokenGeneration) :
    Kept verify { st with
      db := endSignIns { st.db with users := st.db.users.modify userId f } userId now } := by
  have hbearer (bearer : Bearer) (root : Option (Root Password))
      (hright : bearer.Right verify st.db root) :
      bearer.Right verify
        (endSignIns { st.db with users := st.db.users.modify userId f } userId now) root := by
    intro account haccount
    simp only [endSignIns, modify_at] at haccount
    split at haccount
    · obtain ⟨mid, hmid, rfl⟩ := Option.map_eq_some_iff.mp haccount
      obtain ⟨old, hold, rfl⟩ := Option.map_eq_some_iff.mp hmid
      have hle := (hright old hold).1
      dsimp only
      rw [hf old]
      exact ⟨by omega, fun he => by omega⟩
    · exact hright account haccount
  refine ⟨fun row hrow => ?_, fun row hrow hlive account haccount => ?_,
    fun e he => hbearer e.1 e.2 (h.bearers e he), h.tasks.imp fun task htask => ?_⟩
  · obtain ⟨old, hold, -, -, htoken, -⟩ := mem_revokes hrow
    rw [← htoken]
    exact h.below old hold
  · obtain ⟨old, hold, -, -, -, -, hsame, -⟩ := mem_revokes hrow
    obtain ⟨hsame, hother⟩ := hsame hlive
    cases hsame
    have hne : row.userId ≠ userId := by simpa using hother
    simp only [endSignIns, modify_at, if_neg hne] at haccount
    exact h.rows row hold hlive account haccount
  · cases task with
    | mints bearer root => exact hbearer bearer root htask
    | _ => trivial

/-- Something of an account changes that no token depends on. -/
theorem writesAccount (h : Kept verify st) (userId : ℕ)
    (hhash : ∀ account, (f account).passwordHash = account.passwordHash)
    (hgeneration : ∀ account, (f account).tokenGeneration = account.tokenGeneration) :
    Kept verify { st with db := { st.db with users := st.db.users.modify userId f } } := by
  have hsince (old : Account Hash) (root : Option (Root Password)) (hold : Since verify old root) :
      Since verify (f old) root := by
    cases root with
    | none => exact hold
    | some root =>
      cases root with
      | login password =>
        rw [Since, hhash]
        exact hold
      | answer generation =>
        rw [Since, hgeneration]
        exact hold
  have hbearer (bearer : Bearer) (root : Option (Root Password))
      (hright : bearer.Right verify st.db root) :
      bearer.Right verify { st.db with users := st.db.users.modify userId f } root := by
    intro account haccount
    simp only [modify_at] at haccount
    split at haccount
    · obtain ⟨old, hold, rfl⟩ := Option.map_eq_some_iff.mp haccount
      obtain ⟨hle, hroot⟩ := hright old hold
      rw [hgeneration]
      exact ⟨hle, fun he => hsince old root (hroot he)⟩
    · exact hright account haccount
  refine ⟨h.below, fun row hrow hlive account haccount => ?_,
    fun e he => hbearer e.1 e.2 (h.bearers e he), h.tasks.imp fun task htask => ?_⟩
  · simp only [modify_at] at haccount
    split at haccount
    · obtain ⟨old, hold, rfl⟩ := Option.map_eq_some_iff.mp haccount
      exact hsince old _ (h.rows row hrow hlive old hold)
    · exact h.rows row hrow hlive account haccount
  · cases task with
    | mints bearer root => exact hbearer bearer root htask
    | _ => trivial

/-- A token is derived from one that isn't spent. -/
theorem derives (h : Kept verify st) {row : RefreshToken} (hstored : st.db.stored token = some row)
    (hlive : row.revokedAt = none) :
    ∀ account, st.db.users[row.userId]? = some account → Since verify account st.roots[token]? := by
  obtain ⟨hmem, rfl⟩ := stored_mem hstored
  exact h.rows row hmem hlive

theorem refresh (h : Kept verify st)
    (hs : st.step verify (.refresh i token now) = some st') : Kept verify st' := by
  rw [Server.step] at hs
  split at hs
  · cases hs
  · rcases @rotate_cases Hash st.db token now with
      ⟨row, account, hstored, hlive, -, hactive, he⟩ | ⟨row, -, -, he⟩ | ⟨-, he⟩ <;>
      rw [he] at hs <;> cases hs
    · have hroot := h.derives hstored hlive
      have hnew := (h.revokes now fun r => r.tokenHash == token).inserts row.userId row.familyId now
        hroot
      refine hnew.goOn i fun other hother => ?_
      have hother : st.db.users[row.userId]? = some other := hother
      cases (active_eq_some.mp hactive).1.symm.trans hother
      exact ⟨le_refl _, fun _ => hroot account hother⟩
    · exact h.revokes now _
    · exact h

theorem share (h : Kept verify st) {allow : ℕ → Bool}
    (hs : st.step verify (.share token now allow) = some st') : Kept verify st' := by
  rw [Server.step] at hs
  rcases @share_cases Hash st.db token now allow with
    ⟨row, account, hstored, hlive, -, -, he⟩ | ⟨row, -, -, he⟩ | ⟨-, hwhy, hsame⟩
  · rw [he] at hs
    cases hs
    exact h.inserts row.userId st.db.made now (h.derives hstored hlive)
  · rw [he] at hs
    cases hs
    exact h.revokes now _
  · have he : shareFamily st.db token now allow = ((shareFamily st.db token now allow).1, st.db) :=
      Prod.ext rfl hsame
    rcases hwhy with hwhy | hwhy <;> rw [he, hwhy] at hs <;> cases hs <;> exact h

theorem setsPassword (h : Kept verify st) (newHash : Hash) :
    Kept verify (st.setsPassword i userId account newHash now) := by
  have hending := h.ending (f := fun account => { account with passwordHash := newHash }) userId now
    fun _ => rfl
  exact hending.goOn i trivial

theorem advance (h : Kept verify st) (hi : st.tasks[i]? = some task)
    (hok : IssuesSoon verify st (.step i now)) : Kept verify (advance verify st i now task) := by
  rw [IssuesSoon, hi] at hok
  cases task with
  | verifies userId hash password =>
    rw [SignIns.advance]
    split
    · exact h.goOn i trivial
    · exact h.ends i
  | readsGeneration userId root =>
    rw [SignIns.advance]
    split
    · exact h.ends i
    · next account haccount =>
      refine (h.mints fun other hother => ?_).goOn i trivial
      cases haccount.symm.trans hother
      exact ⟨le_refl _, fun _ => hok account haccount⟩
  | issuesFamily userId root => exact (h.inserts userId st.db.made now hok).ends i
  | mints bearer root => exact (h.mints (h.tasks i _ hi)).ends i

theorem step {event : Event Password Hash} (h : Kept verify st) (hok : IssuesSoon verify st event)
    (hs : st.step verify event = some st') : Kept verify st' := by
  cases event with
  | login i userId password =>
    rw [Server.step] at hs
    split at hs
    · cases hs
    · split at hs <;> cases hs
      · exact h
      · exact h.goOn i trivial
  | refresh i token now => exact h.refresh hs
  | share token now allow => exact h.share hs
  | changePassword i userId newHash now =>
    rw [Server.step] at hs
    split at hs
    · cases hs
    · obtain ⟨account, -, rfl⟩ := Option.map_eq_some_iff.mp hs
      exact h.setsPassword newHash
  | useLink i userId newHash now =>
    rw [Server.step] at hs
    split at hs
    · cases hs
    · split at hs
      · cases hs
        exact h
      · split at hs <;> cases hs
        · exact h
        · exact h.setsPassword newHash
  | remove userId now =>
    cases hs
    exact h.ending userId now fun _ => rfl
  | restore userId =>
    cases hs
    exact h.writesAccount userId (fun _ => rfl) fun _ => rfl
  | fails i =>
    cases hs
    exact h.ends i
  | step i now =>
    obtain ⟨task, hi, rfl⟩ := Option.map_eq_some_iff.mp hs
    exact h.advance hi hok

end Kept

end Steps

/-- In every run whose issuing steps come soon enough, whatever token works in the state it
reaches was issued since the account's sign-ins were last ended: in answer to the request that
ended them, for a password that is the account's now, or from such a token. -/
theorem ended_sign_ins_stay_ended {verify : Password → Hash → Bool} {users : FMap ℕ (Account Hash)}
    {events : List (Event Password Hash)} {st : Server Password Hash}
    (hm : (machine verify users).Meets (IssuesSoon verify) events)
    (hr : (machine verify users).run events = some st) :
    (∀ bearer root, (bearer, root) ∈ st.bearers → stillSignedIn st.db bearer = true →
      ∃ account, st.db.active bearer.userId = some account ∧ Since verify account root) ∧
    ∀ token now, accepts st.db token now = true →
      ∃ row account, st.db.stored token = some row ∧ st.db.active row.userId = some account ∧
        Since verify account st.roots[token]? := by
  have h : Kept verify st := (machine verify users).invariant_of_meets
    ⟨fun _ h => (by cases h), fun _ h => (by cases h), fun _ h => (by cases h), all_empty⟩
    (fun _ _ _ h hok hl => h.step hok hl) hm hr
  refine ⟨fun bearer root hmem hworks => ?_, fun token now hworks => ?_⟩
  · rw [stillSignedIn, Option.any_eq_true] at hworks
    obtain ⟨account, hactive, hgeneration⟩ := hworks
    obtain ⟨hle, hroot⟩ := h.bearers _ hmem account (active_eq_some.mp hactive).1
    exact ⟨account, hactive, hroot (Nat.le_antisymm hle (of_decide_eq_true hgeneration))⟩
  · obtain ⟨row, account, hstored, hlive, -, hactive⟩ := accepts_iff.mp hworks
    exact ⟨row, account, hstored, hactive,
      h.derives hstored hlive account (active_eq_some.mp hactive).1⟩

instance (verify : Password → Hash → Bool) (account : Account Hash)
    (root : Option (Root Password)) :
    Decidable (Since verify account root) :=
  match root with
  | some (.login password) =>
    inferInstanceAs (Decidable (verify password account.passwordHash = true))
  | some (.answer generation) => inferInstanceAs (Decidable (generation = account.tokenGeneration))
  | none => isFalse id

instance (verify : Password → Hash → Bool) (st : Server Password Hash)
    (event : Event Password Hash) :
    Decidable (IssuesSoon verify st event) := by
  cases event <;> unfold IssuesSoon <;> dsimp only <;> (try split) <;> infer_instance

/-- A server with one member, whose password is 7. -/
def oneMember : FMap ℕ (Account ℕ) := (∅ : FMap ℕ (Account ℕ)).insert 0 ⟨7, 0, false, none⟩

/-- A login, then a new password with its answer, a login with it and a sign-in renewed. -/
def signsInAgain : List (Event ℕ ℕ) :=
  [.login 1 0 7, .step 1 1, .step 1 2, .step 1 3, .changePassword 2 0 8 4, .step 2 5, .step 2 6,
    .login 3 0 8, .step 3 7, .step 3 8, .step 3 9, .refresh 4 2 10, .step 4 11]

theorem ended_sign_ins_stay_ended_signsInAgain :
    ∃ st, (machine (· == ·) oneMember).run signsInAgain = some st ∧ accepts st.db 3 12 = true ∧
      ((∀ bearer root, (bearer, root) ∈ st.bearers → stillSignedIn st.db bearer = true →
        ∃ account, st.db.active bearer.userId = some account ∧ Since (· == ·) account root) ∧
      ∀ token now, accepts st.db token now = true →
        ∃ row account, st.db.stored token = some row ∧ st.db.active row.userId = some account ∧
          Since (· == ·) account st.roots[token]?) :=
  ⟨_, rfl, by decide +kernel,
    @ended_sign_ins_stay_ended ℕ ℕ (· == ·) oneMember signsInAgain _ (by decide +kernel) rfl⟩

/-- A login that verified the password before it was changed and goes on after: both its
tokens work, and were issued for a password that is nobody's. -/
theorem login_outlives_new_password :
    ∃ st, (machine (· == ·) oneMember).run [.login 1 0 7, .step 1 1, .changePassword 2 0 8 2,
        .step 1 3, .step 1 4] = some st ∧
      (∃ bearer root, (bearer, root) ∈ st.bearers ∧ stillSignedIn st.db bearer = true ∧
        ¬ ∃ account, st.db.active bearer.userId = some account ∧ Since (· == ·) account root) ∧
      accepts st.db 0 5 = true ∧
      ∃ account, st.db.active 0 = some account ∧ ¬ Since (· == ·) account st.roots[0]? := by
  refine ⟨_, rfl, ⟨⟨0, 1⟩, some (.login 7), .head _, by decide +kernel, ?_⟩,
    by decide +kernel, ⟨8, 1, false, none⟩, rfl, by decide +kernel⟩
  rintro ⟨account, hactive, hsince⟩
  cases hactive
  exact absurd hsince (by decide +kernel)

end Linger.SignIns
