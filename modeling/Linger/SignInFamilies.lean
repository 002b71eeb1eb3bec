import Linger.SignIns

/-! Refresh families: each has at most one token that works, its newest, and a spent token
that is shown again ends the family it came from. -/
namespace Linger.SignIns
open FiniteMap StepMachine

universe u
variable {Hash : Type u}

/-- What is stored, the time, and each token that was ever issued, with its family. -/
structure Families (Hash : Type u) where
  db : Db Hash
  clock : ℕ
  issued : List (ℕ × ℕ)

inductive Act where
  | issue (userId now : ℕ)
  | rotate (token now : ℕ)
  | share (token now : ℕ) (allow : ℕ → Bool)
  | logout (token now : ℕ)
  | endAll (userId now : ℕ)
  | remove (userId now : ℕ)
  | sweep (batch : List ℕ) (now : ℕ)

def Act.now : Act → ℕ
  | .issue _ now | .rotate _ now | .share _ now _ | .logout _ now | .endAll _ now
  | .remove _ now | .sweep _ now => now

/-- The token somebody shows to be let in with. -/
def Act.shown : Act → Option ℕ
  | .rotate token _ | .share token _ _ => some token
  | _ => none

def Act.write (db : Db Hash) : Act → Db Hash
  | .issue userId now => issueRefreshFamily db userId now
  | .rotate token now => (rotateRefresh db token now).2
  | .share token now allow => (shareFamily db token now allow).2
  | .logout token now => revokeFamily db token now
  | .endAll userId now => endSignIns db userId now
  | .remove userId now => removeUser db userId now
  | .sweep batch now => sweepTokens db now batch

/-- The rows a write put in. -/
def inserted (db db' : Db Hash) : List (ℕ × ℕ) :=
  (db'.refreshTokens.filter fun row => decide (db.made ≤ row.tokenHash)).map
    fun row => (row.familyId, row.tokenHash)

/-- Time does not go back, and nobody who isn't there is issued a token. -/
def Act.can (st : Families Hash) (act : Act) : Bool :=
  decide (st.clock ≤ act.now) &&
    match act with
    | .issue userId _ => (st.db.users[userId]?).isSome
    | _ => true

def Families.step (st : Families Hash) (act : Act) : Option (Families Hash) :=
  if act.can st then
    some ⟨act.write st.db, act.now, st.issued ++ inserted st.db (act.write st.db)⟩
  else none

/-- Nobody has signed in yet. -/
def families (users : FMap ℕ (Account Hash)) : Machine (Families Hash) Act :=
  ⟨⟨⟨users, [], 0⟩, 0, []⟩, Families.step⟩

/-- The last token issued of a family. -/
def newest (issued : List (ℕ × ℕ)) (familyId : ℕ) : Option ℕ :=
  ((issued.filter fun e => e.1 == familyId).map Prod.snd).getLast?

theorem newest_append (issued : List (ℕ × ℕ)) (familyId token other : ℕ) :
    newest (issued ++ [(familyId, token)]) other =
      if familyId = other then some token else newest issued other := by
  rw [newest, List.filter_append]
  by_cases h : familyId = other
  · simp [h]
  · simp [h, newest]

/-- Rows are revoked or go, and nobody who was removed is back. -/
structure Shrinks (db db' : Db Hash) : Prop where
  made : db'.made = db.made
  tokens : List.Sublist (db'.refreshTokens.map RefreshToken.tokenHash)
    (db.refreshTokens.map RefreshToken.tokenHash)
  rows : ∀ row ∈ db'.refreshTokens, ∃ old ∈ db.refreshTokens, old.userId = row.userId ∧
    old.familyId = row.familyId ∧ old.tokenHash = row.tokenHash ∧ old.expiresAt = row.expiresAt ∧
    (row.revokedAt = none → old = row)
  removed : ∀ userId, db.active userId = none → db'.active userId = none

section Shrinks
variable {db db' db'' : Db Hash} {userId token now : ℕ} {p : RefreshToken → Bool}

theorem Shrinks.refl (db : Db Hash) : Shrinks db db :=
  ⟨rfl, List.Sublist.refl _, fun row h => ⟨row, h, rfl, rfl, rfl, rfl, fun _ => rfl⟩, fun _ h => h⟩

theorem Shrinks.trans (h : Shrinks db db') (h' : Shrinks db' db'') : Shrinks db db'' := by
  refine ⟨h'.made.trans h.made, h'.tokens.trans h.tokens, fun row hrow => ?_,
    fun u hu => h'.removed u (h.removed u hu)⟩
  obtain ⟨mid, hmid, hu', hf', ht', he', hlive'⟩ := h'.rows row hrow
  obtain ⟨old, hold, hu, hf, ht, he, hlive⟩ := h.rows mid hmid
  refine ⟨old, hold, hu.trans hu', hf.trans hf', ht.trans ht', he.trans he', fun hnone => ?_⟩
  have hmid : mid = row := hlive' hnone
  rw [← hmid] at hnone ⊢
  exact hlive hnone

theorem shrinks_revokes (db : Db Hash) (now : ℕ) (p : RefreshToken → Bool) :
    Shrinks db (db.revokes now p) := by
  refine ⟨rfl, by rw [revokes_tokens], fun row hrow => ?_, fun _ h => h⟩
  obtain ⟨old, hold, hu, hf, ht, he, hlive, -⟩ := mem_revokes hrow
  exact ⟨old, hold, hu, hf, ht, he, fun hnone => (hlive hnone).1⟩

/-- Accounts change, and nobody comes back. -/
theorem shrinks_users {users : FMap ℕ (Account Hash)}
    (h : ∀ u, db.active u = none → Db.active { db with users := users } u = none) :
    Shrinks db { db with users := users } :=
  ⟨rfl, List.Sublist.refl _, fun row h => ⟨row, h, rfl, rfl, rfl, rfl, fun _ => rfl⟩, h⟩

theorem active_modify_none {f : Account Hash → Account Hash}
    (hf : ∀ account, account.deactivatedAt.isSome = true → (f account).deactivatedAt.isSome = true)
    {u : ℕ} (h : db.active u = none) :
    Db.active { db with users := db.users.modify userId f } u = none := by
  rw [Db.active, Option.filter_eq_none_iff] at h ⊢
  intro account haccount
  rw [modify_at] at haccount
  split at haccount
  · obtain ⟨old, hold, rfl⟩ := Option.map_eq_some_iff.mp haccount
    have hgone := h old hold
    rw [Bool.not_eq_true, Option.isNone_eq_false_iff] at hgone ⊢
    exact hf old hgone
  · exact h account haccount

theorem shrinks_endSignIns (db : Db Hash) (userId now : ℕ) :
    Shrinks db (endSignIns db userId now) := by
  refine (shrinks_revokes db now _).trans (shrinks_users fun u h => ?_)
  exact active_modify_none (f := fun account =>
    { account with tokenGeneration := account.tokenGeneration + 1 }) (fun _ h => h) h

theorem shrinks_removeUser (db : Db Hash) (userId now : ℕ) :
    Shrinks db (removeUser db userId now) := by
  refine .trans (shrinks_users fun _ h => active_modify_none ?_ h) (shrinks_endSignIns _ _ _)
  intro account _
  simp

theorem shrinks_sweep (db : Db Hash) (now : ℕ) (batch : List ℕ) :
    Shrinks db (sweepTokens db now batch) := by
  refine ⟨rfl, List.filter_sublist.map _, fun row hrow => ?_, fun _ h => h⟩
  exact ⟨row, (List.mem_filter.mp hrow).1, rfl, rfl, rfl, rfl, fun _ => rfl⟩

theorem shrinks_revokeFamily (db : Db Hash) (token now : ℕ) :
    Shrinks db (revokeFamily db token now) := by
  rw [revokeFamily]
  split
  · exact .refl db
  · exact shrinks_revokes db now _

end Shrinks

/-- A new token is of a new family, or of one whose live token has just been spent for it. -/
def Fresh (db db' : Db Hash) (familyId now : ℕ) : Prop :=
  familyId = db.made ∨
    ∃ row ∈ db.refreshTokens, row.familyId = familyId ∧ row.revokedAt = none ∧
      now < row.expiresAt ∧ db.active row.userId ≠ none ∧
      ∀ r ∈ db'.refreshTokens, r.tokenHash = row.tokenHash → r.revokedAt.isSome = true

/-- What a write does: rows are revoked or go, and then one may be put in. -/
theorem write_cases (db : Db Hash) (act : Act) :
    Shrinks db (act.write db) ∨
    ∃ db' userId familyId, Shrinks db db' ∧ act.write db = db'.inserts userId familyId act.now ∧
      Fresh db db' familyId act.now := by
  cases act with
  | issue userId now => exact .inr ⟨db, userId, db.made, .refl db, rfl, .inl rfl⟩
  | rotate token now =>
    rcases @rotate_cases Hash db token now with
      ⟨row, account, hrow, hlive, hnow, hactive, he⟩ | ⟨row, -, -, he⟩ | ⟨-, he⟩
    · refine .inr ⟨_, row.userId, row.familyId,
        shrinks_revokes db now fun r => r.tokenHash == token,
        by rw [Act.write, he, Act.now], .inr ?_⟩
      obtain ⟨hmem, htoken⟩ := stored_mem hrow
      refine ⟨row, hmem, rfl, hlive, hnow, by rw [hactive]; simp, fun r hr hsame => ?_⟩
      obtain ⟨old, -, -, -, -, -, hkept, -⟩ := mem_revokes hr
      by_contra hnone
      have hp := (hkept (Option.not_isSome_iff_eq_none.mp hnone)).2
      simp [hsame, htoken] at hp
    · left
      rw [Act.write, he]
      exact shrinks_revokes db now _
    · left
      rw [Act.write, he]
      exact .refl db
  | share token now allow =>
    rcases @share_cases Hash db token now allow with
      ⟨row, account, -, -, -, -, he⟩ | ⟨row, -, -, he⟩ | ⟨-, -, he⟩
    · exact .inr ⟨db, row.userId, db.made, .refl db, by rw [Act.write, he, Act.now], .inl rfl⟩
    · left
      rw [Act.write, he]
      exact shrinks_revokes db now _
    · left
      rw [Act.write, he]
      exact .refl db
  | logout token now => exact .inl (shrinks_revokeFamily db token now)
  | endAll userId now => exact .inl (shrinks_endSignIns db userId now)
  | remove userId now => exact .inl (shrinks_removeUser db userId now)
  | sweep batch now => exact .inl (shrinks_sweep db now batch)

/-- No two rows are of one token, and a row that isn't revoked is its family's newest. -/
structure Sound (st : Families Hash) : Prop where
  below : ∀ row ∈ st.db.refreshTokens, row.tokenHash < st.db.made ∧ row.familyId < st.db.made
  nodup : (st.db.refreshTokens.map RefreshToken.tokenHash).Nodup
  newest : ∀ row ∈ st.db.refreshTokens, row.revokedAt = none →
    newest st.issued row.familyId = some row.tokenHash

section Steps
variable {st st' : Families Hash} {db db' : Db Hash} {act : Act} {userId familyId token now : ℕ}

theorem Shrinks.below (h : Shrinks db db')
    (hbelow : ∀ row ∈ db.refreshTokens, row.tokenHash < db.made ∧ row.familyId < db.made) :
    ∀ row ∈ db'.refreshTokens, row.tokenHash < db'.made ∧ row.familyId < db'.made := by
  intro row hrow
  obtain ⟨old, hold, -, hfamily, htoken, -⟩ := h.rows row hrow
  rw [h.made, ← hfamily, ← htoken]
  exact hbelow old hold

theorem inserted_of_below (h : ∀ row ∈ db'.refreshTokens, row.tokenHash < db.made) :
    inserted db db' = [] := by
  rw [inserted, List.map_eq_nil_iff, List.filter_eq_nil_iff]
  intro row hrow
  have := h row hrow
  simp only [decide_eq_true_eq, not_le]
  exact this

theorem inserted_inserts (h : ∀ row ∈ db'.refreshTokens, row.tokenHash < db.made)
    (hmade : db'.made = db.made) :
    inserted db (db'.inserts userId familyId now) = [(familyId, db.made)] := by
  have hold : inserted db db' = [] := inserted_of_below h
  rw [inserted, List.map_eq_nil_iff] at hold
  rw [inserted, Db.inserts, List.filter_append, hold]
  simp [hmade]

/-- A step's write, with what it adds to what was issued. -/
theorem Sound.step_cases (hs : Sound st) (h : st.step act = some st') :
    st.clock ≤ act.now ∧ st'.clock = act.now ∧ st'.db = act.write st.db ∧
      ((Shrinks st.db st'.db ∧ st'.issued = st.issued) ∨
      ∃ db userId familyId, Shrinks st.db db ∧ st'.db = db.inserts userId familyId act.now ∧
        st'.issued = st.issued ++ [(familyId, st.db.made)] ∧ Fresh st.db db familyId act.now) := by
  obtain ⟨hcan, he⟩ := Option.ite_none_right_eq_some.mp h
  cases he
  have hclock := of_decide_eq_true (Bool.and_eq_true_iff.mp hcan).1
  refine ⟨hclock, rfl, rfl, ?_⟩
  rcases write_cases st.db act with hshrinks | ⟨db, userId, familyId, hshrinks, hwrite, hfresh⟩
  · left
    have hbelow := hshrinks.below hs.below
    rw [hshrinks.made] at hbelow
    refine ⟨hshrinks, ?_⟩
    rw [inserted_of_below fun row hrow => (hbelow row hrow).1, List.append_nil]
  · right
    have hbelow := hshrinks.below hs.below
    rw [hshrinks.made] at hbelow
    refine ⟨db, userId, familyId, hshrinks, hwrite, ?_, hfresh⟩
    rw [hwrite, inserted_inserts (fun row hrow => (hbelow row hrow).1) hshrinks.made]

theorem Sound.step (hs : Sound st) (h : st.step act = some st') : Sound st' := by
  obtain ⟨-, -, -, ⟨hshrinks, hissued⟩ | ⟨db, userId, familyId, hshrinks, hdb, hissued, hfresh⟩⟩ :=
    hs.step_cases h
  · refine ⟨hshrinks.below hs.below, hshrinks.tokens.nodup hs.nodup, fun row hrow hlive => ?_⟩
    obtain ⟨old, hold, -, -, -, -, hsame⟩ := hshrinks.rows row hrow
    cases hsame hlive
    rw [hissued]
    exact hs.newest row hold hlive
  · have hbelow := hshrinks.below hs.below
    have hfamily : familyId < db.made + 1 := by
      rcases hfresh with rfl | ⟨row, hrow, rfl, -⟩
      · rw [hshrinks.made]
        omega
      · have := (hs.below row hrow).2
        rw [hshrinks.made]
        omega
    refine ⟨fun row hrow => ?_, ?_, fun row hrow hlive => ?_⟩
    · rw [hdb] at hrow ⊢
      rcases mem_inserts.mp hrow with hrow | rfl
      · have := hbelow row hrow
        rw [inserts_made]
        omega
      · exact ⟨Nat.lt_succ_self _, hfamily⟩
    · rw [hdb, Db.inserts, List.map_append, List.nodup_append]
      refine ⟨hshrinks.tokens.nodup hs.nodup, List.nodup_singleton _, ?_⟩
      intro token htoken other hother
      obtain ⟨row, hrow, rfl⟩ := List.mem_map.mp htoken
      have := (hbelow row hrow).1
      simp only [List.map_cons, List.map_nil, List.mem_singleton] at hother
      omega
    · rw [hdb] at hrow
      rw [hissued, newest_append]
      rcases mem_inserts.mp hrow with hin | rfl
      · obtain ⟨old, hold, -, -, -, -, hsame⟩ := hshrinks.rows row hin
        cases hsame hlive
        have hnew := hs.newest row hold hlive
        rw [if_neg]
        · exact hnew
        -- it would be the token the new one was issued for, which is spent
        · rintro rfl
          rcases hfresh with hmade | ⟨spent, hspent, hfamily, hspentLive, -, -, hrevoked⟩
          · have := (hs.below row hold).2
            omega
          · have hnew' := hs.newest spent hspent hspentLive
            rw [hfamily, hnew] at hnew'
            have := hrevoked row hin (by simpa using hnew')
            rw [hlive] at this
            cases this
      · rw [if_pos rfl, hshrinks.made]

theorem Sound.accepts_iff (hs : Sound st) : accepts st.db token now = true ↔
    ∃ row ∈ st.db.refreshTokens, row.tokenHash = token ∧ row.revokedAt = none ∧
      now < row.expiresAt ∧ st.db.active row.userId ≠ none := by
  rw [SignIns.accepts_iff]
  constructor
  · rintro ⟨row, account, hrow, hlive, hnow, hactive⟩
    obtain ⟨hmem, htoken⟩ := stored_mem hrow
    exact ⟨row, hmem, htoken, hlive, hnow, by rw [hactive]; simp⟩
  · rintro ⟨row, hmem, rfl, hlive, hnow, hactive⟩
    obtain ⟨account, hactive⟩ := Option.ne_none_iff_exists'.mp hactive
    exact ⟨row, account, stored_of_mem hs.nodup hmem, hlive, hnow, hactive⟩

/-- No token of the family will work again: each is revoked, past its time, or of somebody
who was removed. -/
def Ended (st : Families Hash) (familyId : ℕ) : Prop :=
  familyId < st.db.made ∧ ∀ row ∈ st.db.refreshTokens, row.familyId = familyId →
    row.revokedAt = none → row.expiresAt ≤ st.clock ∨ st.db.active row.userId = none

/-- The token is one of the family and spent, if it is still stored. -/
def Spent (st : Families Hash) (token familyId : ℕ) : Prop :=
  token < st.db.made ∧ ∀ row ∈ st.db.refreshTokens, row.tokenHash = token →
    row.familyId = familyId ∧ row.revokedAt.isSome = true

theorem Ended.step (hs : Sound st) (hended : Ended st familyId) (h : st.step act = some st') :
    Ended st' familyId := by
  obtain ⟨hclock, hnow, -, ⟨hshrinks, -⟩ | ⟨db, userId, family, hshrinks, hdb, -, hfresh⟩⟩ :=
    hs.step_cases h
  · refine ⟨hshrinks.made ▸ hended.1, fun row hrow hfamily hlive => ?_⟩
    obtain ⟨old, hold, -, -, -, -, hsame⟩ := hshrinks.rows row hrow
    cases hsame hlive
    rw [hnow]
    exact (hended.2 row hold hfamily hlive).imp (fun h => h.trans hclock)
      (hshrinks.removed row.userId)
  · refine ⟨by rw [hdb, inserts_made, hshrinks.made]; exact Nat.lt_succ_of_lt hended.1,
      fun row hrow hfamily hlive => ?_⟩
    rw [hdb] at hrow ⊢
    rw [hnow]
    rcases mem_inserts.mp hrow with hin | rfl
    · obtain ⟨old, hold, -, -, -, -, hsame⟩ := hshrinks.rows row hin
      cases hsame hlive
      exact (hended.2 row hold hfamily hlive).imp (fun h => h.trans hclock)
        (hshrinks.removed row.userId)
    -- nothing is issued of it, as nothing of it works
    · have hfamily : family = familyId := hfamily
      rcases hfresh with rfl | ⟨spent, hspent, rfl, hlive, htime, hactive, -⟩
      · have := hended.1
        omega
      · rcases hended.2 spent hspent hfamily hlive with hpast | hgone
        · omega
        · exact absurd hgone hactive

theorem Spent.step (hs : Sound st) (hspent : Spent st token familyId) (h : st.step act = some st') :
    Spent st' token familyId := by
  have hkeeps (db : Db Hash) (hshrinks : Shrinks st.db db) (row : RefreshToken)
      (hrow : row ∈ db.refreshTokens) (htoken : row.tokenHash = token) :
      row.familyId = familyId ∧ row.revokedAt.isSome = true := by
    obtain ⟨old, hold, -, hsameFamily, hsameToken, -, hsame⟩ := hshrinks.rows row hrow
    obtain ⟨hfamily, hrevoked⟩ := hspent.2 old hold (hsameToken.trans htoken)
    refine ⟨hsameFamily ▸ hfamily, ?_⟩
    by_contra hnone
    cases hsame (Option.not_isSome_iff_eq_none.mp hnone)
    exact hnone hrevoked
  obtain ⟨-, -, -, ⟨hshrinks, -⟩ | ⟨db, userId, family, hshrinks, hdb, -, -⟩⟩ := hs.step_cases h
  · exact ⟨hshrinks.made ▸ hspent.1, hkeeps st'.db hshrinks⟩
  · refine ⟨by rw [hdb, inserts_made, hshrinks.made]; exact Nat.lt_succ_of_lt hspent.1,
      fun row hrow htoken => ?_⟩
    rw [hdb] at hrow
    rcases mem_inserts.mp hrow with hin | rfl
    · exact hkeeps db hshrinks row hin htoken
    · have hmade : db.made = token := htoken
      have := hspent.1
      rw [hshrinks.made] at hmade
      omega

theorem Sound.run {acts : List Act} {users : FMap ℕ (Account Hash)} (hs : Sound st)
    (hr : (families users).runFrom st acts = some st') : Sound st' :=
  (families users).keeps_from (fun _ _ _ hs _ hl => hs.step hl) hs
    ((families users).meetsFrom_true _ _) hr

theorem sound_of_run {acts : List Act} {users : FMap ℕ (Account Hash)}
    (hr : (families users).run acts = some st) : Sound st := by
  have hstart : Sound (families users).start :=
    ⟨fun _ h => (by cases h), List.nodup_nil, fun _ h => by cases h⟩
  exact hstart.run hr

theorem Ended.run {acts : List Act} {users : FMap ℕ (Account Hash)} (hs : Sound st)
    (hended : Ended st familyId) (hr : (families users).runFrom st acts = some st') :
    Ended st' familyId :=
  ((families users).keeps_from (I := fun st => Sound st ∧ Ended st familyId)
    (fun _ _ _ h _ hl => ⟨h.1.step hl, h.2.step h.1 hl⟩) ⟨hs, hended⟩
    ((families users).meetsFrom_true _ _) hr).2

theorem Spent.run {acts : List Act} {users : FMap ℕ (Account Hash)} (hs : Sound st)
    (hspent : Spent st token familyId) (hr : (families users).runFrom st acts = some st') :
    Spent st' token familyId :=
  ((families users).keeps_from (I := fun st => Sound st ∧ Spent st token familyId)
    (fun _ _ _ h _ hl => ⟨h.1.step hl, h.2.step h.1 hl⟩) ⟨hs, hspent⟩
    ((families users).meetsFrom_true _ _) hr).2

/-- None of the family's tokens would be taken, now or later. -/
def NoneWorks (st : Families Hash) (familyId : ℕ) : Prop :=
  ∀ row ∈ st.db.refreshTokens, row.familyId = familyId → ∀ now, st.clock ≤ now →
    accepts st.db row.tokenHash now = false

theorem Ended.noneWorks (hs : Sound st) (hended : Ended st familyId) : NoneWorks st familyId := by
  intro row hrow hfamily now hnow
  rw [← Bool.not_eq_true, hs.accepts_iff]
  rintro ⟨other, hother, htoken, hlive, htime, hactive⟩
  cases List.inj_on_of_nodup_map hs.nodup hother hrow htoken
  rcases hended.2 row hrow hfamily hlive with hpast | hgone
  · omega
  · exact hactive hgone

/-- A spent token that is shown ends its family. -/
theorem Sound.shown_spent (hs : Sound st) {row : RefreshToken} (hrow : row ∈ st.db.refreshTokens)
    (hspent : row.revokedAt.isSome = true) (hshown : act.shown = some row.tokenHash)
    (h : st.step act = some st') : Ended st' row.familyId := by
  have hstored := stored_of_mem hs.nodup hrow
  obtain ⟨-, -, hdb, -⟩ := hs.step_cases h
  have hrevokes :
      ∃ now, act.write st.db = st.db.revokes now fun r => r.familyId == row.familyId := by
    cases act with
    | rotate token now =>
      cases hshown
      exact ⟨now, by rw [Act.write, rotateRefresh, hstored]; simp only [hspent, if_true]⟩
    | share token now allow =>
      cases hshown
      exact ⟨now, by rw [Act.write, shareFamily, hstored]; simp only [hspent, if_true]⟩
    | _ => cases hshown
  obtain ⟨now, hwrite⟩ := hrevokes
  rw [hwrite] at hdb
  refine ⟨by rw [hdb]; exact (hs.below row hrow).2, fun r hr hfamily hlive => ?_⟩
  rw [hdb] at hr
  obtain ⟨_, -, -, -, -, -, hkept, -⟩ := mem_revokes hr
  have hother := (hkept hlive).2
  simp [hfamily] at hother

/-- A stored token that is shown to be rotated is spent then, or nothing of its family works. -/
theorem Sound.rotated (hs : Sound st) {row : RefreshToken} (hrow : row ∈ st.db.refreshTokens)
    (h : st.step (.rotate row.tokenHash now) = some st') :
    Ended st' row.familyId ∨ Spent st' row.tokenHash row.familyId := by
  have hstored := stored_of_mem hs.nodup hrow
  obtain ⟨-, hnow, hdb, -⟩ := hs.step_cases h
  rcases @rotate_cases Hash st.db row.tokenHash now with
    ⟨found, account, hfound, -, -, -, he⟩ | ⟨found, hfound, hspent, -⟩ | ⟨hnot, he⟩
  · right
    rw [Act.write, he] at hdb
    refine ⟨by rw [hdb]; exact Nat.lt_succ_of_lt (hs.below row hrow).1, fun r hr htoken => ?_⟩
    rw [hdb] at hr
    rcases mem_inserts.mp hr with hin | rfl
    · obtain ⟨old, hold, -, hfamily, hsame, -, hkept, -⟩ := mem_revokes hin
      cases List.inj_on_of_nodup_map hs.nodup hold hrow (hsame.trans htoken)
      refine ⟨hfamily.symm, ?_⟩
      by_contra hnone
      have hother := (hkept (Option.not_isSome_iff_eq_none.mp hnone)).2
      simp [htoken] at hother
    · have hmade : st.db.made = row.tokenHash := htoken
      have := (hs.below row hrow).1
      omega
  · cases hstored.symm.trans hfound
    exact .inl (hs.shown_spent hrow hspent rfl h)
  -- it was the only one of its family not revoked, and is refused for good
  · left
    obtain ⟨hlive, hwhy⟩ := hnot row hstored
    rw [Act.write, he] at hdb
    refine ⟨by rw [hdb]; exact (hs.below row hrow).2, fun r hr hfamily hrlive => ?_⟩
    rw [hdb] at hr ⊢
    rw [hnow]
    have hnew := hs.newest r hr hrlive
    rw [hfamily, hs.newest row hrow hlive] at hnew
    cases List.inj_on_of_nodup_map hs.nodup hrow hr (by simpa using hnew)
    exact hwhy

def Act.sweeps : Act → Bool
  | .sweep _ _ => true
  | _ => false

/-- Only a sweep takes rows away. -/
theorem stored_stays {acts : List Act} {users : FMap ℕ (Account Hash)}
    (hsweeps : ∀ act ∈ acts, act.sweeps = false)
    (hr : (families users).runFrom st acts = some st')
    (hrow : token ∈ st.db.refreshTokens.map RefreshToken.tokenHash) :
    token ∈ st'.db.refreshTokens.map RefreshToken.tokenHash := by
  have hinserts (db : Db Hash) (u f n : ℕ)
      (h : token ∈ db.refreshTokens.map RefreshToken.tokenHash) :
      token ∈ (db.inserts u f n).refreshTokens.map RefreshToken.tokenHash := by
    rw [Db.inserts, List.map_append]
    exact List.mem_append_left _ h
  have hrevokes (db : Db Hash) (n : ℕ) (p : RefreshToken → Bool)
      (h : token ∈ db.refreshTokens.map RefreshToken.tokenHash) :
      token ∈ (db.revokes n p).refreshTokens.map RefreshToken.tokenHash := by
    rw [revokes_tokens]
    exact h
  have hm : (families users).MeetsFrom (fun _ act => act.sweeps = false) st acts :=
    (families users).meetsFrom_of_forall (fun _ act hact => hsweeps act hact) st
  refine (families users).keeps_from
    (I := fun st => token ∈ st.db.refreshTokens.map RefreshToken.tokenHash) ?_ hrow hm hr
  intro st act st' hrow hsweep h
  obtain ⟨-, he⟩ := Option.ite_none_right_eq_some.mp h
  cases he
  cases act with
  | issue u n => exact hinserts _ _ _ _ hrow
  | rotate shown n =>
    rcases @rotate_cases Hash st.db shown n with
      ⟨_, _, -, -, -, -, he⟩ | ⟨_, -, -, he⟩ | ⟨-, he⟩ <;> simp only [Act.write, he]
    · exact hinserts _ _ _ _ (hrevokes _ _ _ hrow)
    · exact hrevokes _ _ _ hrow
    · exact hrow
  | share shown n allow =>
    rcases @share_cases Hash st.db shown n allow with
      ⟨_, _, -, -, -, -, he⟩ | ⟨_, -, -, he⟩ | ⟨-, -, he⟩ <;> simp only [Act.write, he]
    · exact hinserts _ _ _ _ hrow
    · exact hrevokes _ _ _ hrow
    · exact hrow
  | logout shown n =>
    simp only [Act.write, revokeFamily]
    split
    · exact hrow
    · exact hrevokes _ _ _ hrow
  | endAll u n => exact hrevokes _ _ _ hrow
  | remove u n => exact hrevokes _ _ _ hrow
  | sweep batch n => cases hsweep

end Steps

section Results
variable {users : FMap ℕ (Account Hash)} {st : Families Hash}

/-- Of one family no two tokens would be taken. -/
def OneWorks (st : Families Hash) : Prop :=
  ∀ a ∈ st.db.refreshTokens, ∀ b ∈ st.db.refreshTokens, a.familyId = b.familyId → ∀ now now',
    accepts st.db a.tokenHash now = true → accepts st.db b.tokenHash now' = true → a = b

/-- A token would be taken where it is its family's newest, not past its time, not revoked,
and its owner is there. -/
def NewestWorks (st : Families Hash) : Prop :=
  ∀ token now, accepts st.db token now = true ↔
    ∃ row ∈ st.db.refreshTokens, row.tokenHash = token ∧
      newest st.issued row.familyId = some token ∧ now < row.expiresAt ∧ row.revokedAt = none ∧
      st.db.active row.userId ≠ none

/-- Once a spent token that is stored was shown, nothing of its family is ever taken again. -/
def ReuseEnds (users : FMap ℕ (Account Hash)) (st : Families Hash) : Prop :=
  ∀ row ∈ st.db.refreshTokens, row.revokedAt.isSome = true → ∀ act, act.shown = some row.tokenHash →
    ∀ st₁, st.step act = some st₁ → ∀ later st₂, (families users).runFrom st₁ later = some st₂ →
      NoneWorks st₂ row.familyId

/-- Two who hold one token and both show it have nothing that works, whatever is between the
two and after them, as long as the second finds the token stored. Only a sweep can have it
otherwise. -/
def BothEnd (users : FMap ℕ (Account Hash)) (st : Families Hash) : Prop :=
  ∀ row ∈ st.db.refreshTokens, ∀ now st₁, st.step (.rotate row.tokenHash now) = some st₁ →
    ∀ between st₂, (families users).runFrom st₁ between = some st₂ →
      (∀ act ∈ between, act.sweeps = false) ∨
        row.tokenHash ∈ st₂.db.refreshTokens.map RefreshToken.tokenHash →
      ∀ act, act.shown = some row.tokenHash → ∀ st₃, st₂.step act = some st₃ →
        ∀ later st₄, (families users).runFrom st₃ later = some st₄ → NoneWorks st₄ row.familyId

/-- Sharing never spends the token it is shown, and writes nothing when it refuses one that
isn't spent. -/
def ShareSpares (st : Families Hash) : Prop :=
  ∀ token now allow,
    (∀ row ∈ st.db.refreshTokens, row.tokenHash = token → row.revokedAt = none →
      row ∈ (shareFamily st.db token now allow).2.refreshTokens) ∧
    ((shareFamily st.db token now allow).1 = .refused ∨
      (shareFamily st.db token now allow).1 = .held →
      (∃ row ∈ st.db.refreshTokens, row.tokenHash = token ∧ row.revokedAt.isSome = true) ∨
        (shareFamily st.db token now allow).2 = st.db)

theorem Sound.newestWorks (hs : Sound st) : NewestWorks st := by
  intro token now
  rw [hs.accepts_iff]
  constructor
  · rintro ⟨row, hrow, rfl, hlive, htime, hactive⟩
    exact ⟨row, hrow, rfl, hs.newest row hrow hlive, htime, hlive, hactive⟩
  · rintro ⟨row, hrow, htoken, -, htime, hlive, hactive⟩
    exact ⟨row, hrow, htoken, hlive, htime, hactive⟩

theorem Sound.oneWorks (hs : Sound st) : OneWorks st := by
  intro a ha b hb hfamily now now' hworks hworks'
  obtain ⟨a', ha', htoken, hnew, -⟩ := (hs.newestWorks _ _).mp hworks
  obtain ⟨b', hb', htoken', hnew', -⟩ := (hs.newestWorks _ _).mp hworks'
  cases List.inj_on_of_nodup_map hs.nodup ha' ha htoken
  cases List.inj_on_of_nodup_map hs.nodup hb' hb htoken'
  apply List.inj_on_of_nodup_map hs.nodup ha hb
  rw [hfamily, hnew'] at hnew
  exact (Option.some_inj.mp hnew).symm

theorem Sound.reuseEnds (hs : Sound st) : ReuseEnds users st := by
  intro row hrow hspent act hshown st₁ h later st₂ hr
  have hended := hs.shown_spent hrow hspent hshown h
  exact (hended.run (hs.step h) hr).noneWorks ((hs.step h).run hr)

theorem Sound.bothEnd (hs : Sound st) : BothEnd users st := by
  intro row hrow now st₁ h₁ between st₂ hbetween hstill act hshown st₃ h₃ later st₄ hlater
  have hs₁ := hs.step h₁
  have hs₂ := hs₁.run hbetween
  have hs₃ := hs₂.step h₃
  have hended : Ended st₃ row.familyId := by
    rcases hs.rotated hrow h₁ with hended | hspent
    · exact (hended.run hs₁ hbetween).step hs₂ h₃
    · have hspent₂ := hspent.run hs₁ hbetween
      have hstored : row.tokenHash ∈ st₂.db.refreshTokens.map RefreshToken.tokenHash := by
        rcases hstill with hnone | hstored
        · have hrun :
              (families users).runFrom st (.rotate row.tokenHash now :: between) = some st₂ :=
            Option.bind_eq_some_iff.mpr ⟨st₁, h₁, hbetween⟩
          refine stored_stays ?_ hrun (List.mem_map_of_mem hrow)
          intro act hact
          rcases List.mem_cons.mp hact with rfl | hact
          · rfl
          · exact hnone act hact
        · exact hstored
      obtain ⟨r, hr, htoken⟩ := List.mem_map.mp hstored
      obtain ⟨hfamily, hrevoked⟩ := hspent₂.2 r hr htoken
      rw [← hfamily]
      exact hs₂.shown_spent hr hrevoked (hshown.trans (congrArg some htoken.symm)) h₃
  exact (hended.run hs₃ hlater).noneWorks (hs₃.run hlater)

theorem Sound.shareSpares (hs : Sound st) : ShareSpares st := by
  intro token now allow
  rcases @share_cases Hash st.db token now allow with
    ⟨found, account, hfound, -, -, -, he⟩ | ⟨found, hfound, hspent, he⟩ | ⟨-, -, he⟩
  · rw [he]
    refine ⟨fun row hrow _ _ => mem_inserts.mpr (.inl hrow), fun hrefused => ?_⟩
    rcases hrefused with hrefused | hrefused <;> cases hrefused
  · obtain ⟨hmem, htoken⟩ := stored_mem hfound
    refine ⟨fun row hrow hshown hlive => ?_, fun _ => .inl ⟨found, hmem, htoken, hspent⟩⟩
    cases List.inj_on_of_nodup_map hs.nodup hmem hrow (htoken.trans hshown.symm)
    rw [hlive] at hspent
    cases hspent
  · exact ⟨fun row hrow _ _ => by rw [he]; exact hrow, fun _ => .inr he⟩

/-- In every state a run of the operations reaches: a family has at most one token that works,
its newest; reuse of a spent token ends it; and sharing spends nothing. -/
theorem refresh_families {acts : List Act} (hr : (families users).run acts = some st) :
    OneWorks st ∧ NewestWorks st ∧ ReuseEnds users st ∧ BothEnd users st ∧ ShareSpares st := by
  have hs : Sound st := sound_of_run hr
  exact ⟨hs.oneWorks, hs.newestWorks, hs.reuseEnds, hs.bothEnd, hs.shareSpares⟩

end Results

/-- A server with one person on it. -/
def onePerson : FMap ℕ (Account Unit) := (∅ : FMap ℕ (Account Unit)).insert 0 ⟨(), 0, false, none⟩

/-- Somebody who signs in, renews the sign-in twice and shares it, and then a sweep. -/
def renews : List Act :=
  [.issue 0 1, .rotate 0 2, .rotate 1 3, .share 2 4 fun _ => true, .sweep [0, 1] 5]

theorem refresh_families_renews :
    ∃ st, (families onePerson).run renews = some st ∧
      accepts st.db 2 6 = true ∧
      OneWorks st ∧ NewestWorks st ∧ ReuseEnds onePerson st ∧
      BothEnd onePerson st ∧ ShareSpares st :=
  ⟨_, rfl, by decide +kernel, @refresh_families Unit onePerson _ renews rfl⟩

/-- Sharing refuses a spent token, and writes: the token that was rotated for it is revoked. And of
two who hold one token and both show it, the one who shares it first, or shares what it was rotated
for, is left with a token that works. -/
theorem share_refuses_and_writes :
    (∃ st, (families onePerson).run [.issue 0 1, .rotate 0 2] = some st ∧
      (shareFamily st.db 0 3 fun _ => true).1 = .refused ∧
      st.db.refreshTokens.map RefreshToken.revokedAt = [some 2, none] ∧
      (shareFamily st.db 0 3 fun _ => true).2.refreshTokens.map RefreshToken.revokedAt =
        [some 2, some 3]) ∧
    (∃ st, (families onePerson).run [.issue 0 1, .share 0 2 fun _ => true, .rotate 0 3] = some st ∧
      accepts st.db 1 4 = true) ∧
    ∃ st, (families onePerson).run
        [.issue 0 1, .rotate 0 2, .share 1 3 fun _ => true, .rotate 0 4] = some st ∧
      accepts st.db 1 5 = false ∧ accepts st.db 2 5 = true :=
  ⟨⟨_, rfl, by decide +kernel, by decide +kernel, by decide +kernel⟩, ⟨_, rfl, by decide +kernel⟩,
    _, rfl, by decide +kernel, by decide +kernel⟩

end Linger.SignIns
