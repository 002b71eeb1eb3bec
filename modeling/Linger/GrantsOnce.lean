import Linger.Grants

/-! Requests for invites and sign-in links under way at once, and what their grants come to:
an invite's uses, and the one password a link sets. -/
namespace Linger.Grants
open FiniteMap StepMachine TaskPool

variable {Hash : Type}

inductive Request (Hash : Type) where
  | register (code userId : ℕ) (names : Names) (passwordHash : Hash)
  | useLink (code : ℕ) (passwordHash : Hash)
  | make (maker userId code : ℕ)
  | create (maker code : ℕ) (expiresInHours : Option ℕ) (maxUses : Option (Option ℕ))
  | revoke (code : ℕ)
  | remove (userId : ℕ)

/-- Where a request stands, with the account it found it is about. -/
inductive Place where
  | checks
  | hashes (userId : ℕ)
  | readsClock (userId : ℕ)
  | writes (userId now : ℕ)
  | readsGeneration (userId : ℕ)
  | issuesFamily (userId : ℕ)
  | readsUser
  | reloadsDms
  | forgetsExport

/-- Its transaction has committed. -/
def Place.after : Place → Bool
  | .checks | .hashes _ | .readsClock _ | .writes _ _ => false
  | _ => true

/-- What a request looks at before it writes anything. -/
def Request.check (db : Db Hash) (now : ℕ) : Request Hash → Except ApiError ℕ
  | .register code userId _ _ =>
    match inviteRefusal db code now with
    | some refusal => .error refusal
    | none => .ok userId
  | .useLink code _ =>
    match linkState db code now with
    | .isOpen userId => .ok userId
    | refused => .error (linkRefused refused)
  | .make _ userId _ =>
    match db.signIns.active userId with
    | none => .error ⟨.notFound, "No such member."⟩
    | some account =>
      if account.isHost then
        .error ⟨.forbidden, "Nobody can make a sign-in link for the host. " ++
          "A host who's locked out resets their password on the server itself."⟩
      else .ok userId
  | .create maker _ _ maxUses =>
    if maxUses = some (some 0) then .error ⟨.validationFailed, "An invite needs at least one use."⟩
    else .ok maker
  | .revoke code =>
    match db.invites[code]? with
    | none => .error ⟨.notFound, "No such invite."⟩
    | some invite => .ok invite.createdBy
  | .remove userId =>
    match db.signIns.users[userId]? with
    | none => .error ⟨.notFound, "No such person on this server."⟩
    | some _ => .ok userId

/-- Whether a password is hashed before the request writes. -/
def Request.hashes : Request Hash → Bool
  | .register _ _ _ _ | .useLink _ _ => true
  | _ => false

def Request.transact (meet : String → String → Bool) (db : Db Hash) (userId now : ℕ)
    (fault : Option ℕ) : Request Hash → Except ApiError (Db Hash)
  | .register code userId names passwordHash =>
    Grants.register meet db code userId names passwordHash now fault
  | .useLink code passwordHash => Grants.useLink db code userId passwordHash now fault
  | .make maker userId code => Grants.make db maker userId code now fault
  | .create maker code expiresInHours maxUses =>
    Grants.create db maker code expiresInHours maxUses now fault
  | .revoke code => Grants.revoke db code now fault
  | .remove userId => removeUser db userId now fault

/-- Where a request stands once it has committed, if anything is left for it to do. -/
def Request.next (userId : ℕ) : Request Hash → Option Place
  | .register _ _ _ _ | .useLink _ _ => some (.readsGeneration userId)
  | .remove _ => some .reloadsDms
  | _ => none

/-- What is stored, the time, the requests under way and the number of the next, and what they
have come to: whose transaction committed, who was refused or failed, the account made with
each invite, the links that set a password, and the links made for each person. -/
structure Server (Hash : Type) where
  db : Db Hash
  clock : ℕ
  next : ℕ
  tasks : FMap ℕ (Request Hash × Place)
  committed : List ℕ
  refused : List ℕ
  registered : List (ℕ × ℕ)
  used : List ℕ
  made : List (ℕ × ℕ)

namespace Server

def goOn (st : Server Hash) (i : ℕ) (request : Request Hash) (place : Place) :
    Server Hash :=
  { st with tasks := st.tasks.insert i (request, place) }

def ends (st : Server Hash) (i : ℕ) : Server Hash :=
  { st with tasks := st.tasks.erase i }

/-- Refused, or failed: the request's answer is an error. -/
def refuses (st : Server Hash) (i : ℕ) : Server Hash :=
  { st.ends i with refused := st.refused ++ [i] }

/-- What a committed transaction comes to. -/
def grants (st : Server Hash) : Request Hash → Server Hash
  | .register code userId _ _ => { st with registered := st.registered ++ [(code, userId)] }
  | .useLink code _ => { st with used := st.used ++ [code] }
  | .make _ userId code => { st with made := st.made ++ [(userId, code)] }
  | _ => st

def commits (st : Server Hash) (i userId : ℕ) (request : Request Hash)
    (db : Db Hash) : Server Hash :=
  let done := { st.grants request with db := db, committed := st.committed ++ [i] }
  match request.next userId with
  | some place => done.goOn i request place
  | none => done.ends i

end Server

/-- A request's next step, with the statement of it that fails, if any does. -/
def advance (meet : String → String → Bool) (st : Server Hash) (i : ℕ) (fault : Option ℕ)
    (request : Request Hash) : Place → Server Hash
  | .checks =>
    if fault.isSome then st.refuses i
    else
      match request.check st.db st.clock with
      | .error _ => st.refuses i
      | .ok userId =>
        st.goOn i request (if request.hashes then .hashes userId else .readsClock userId)
  | .hashes userId =>
    -- a server busy hashing turns some away
    if fault.isSome then st.refuses i else st.goOn i request (.readsClock userId)
  | .readsClock userId => st.goOn i request (.writes userId st.clock)
  | .writes userId now =>
    match request.transact meet st.db userId now fault with
    | .error _ => st.refuses i
    | .ok db => st.commits i userId request db
  | .readsGeneration userId =>
    if fault.isSome then st.refuses i else st.goOn i request (.issuesFamily userId)
  | .issuesFamily userId =>
    if fault.isSome then st.refuses i
    else
      { st with
        db :=
          { st.db with signIns := SignIns.issueRefreshFamily st.db.signIns userId st.clock } }.goOn
        i request .readsUser
  | .readsUser => if fault.isSome then st.refuses i else st.ends i
  | .reloadsDms => if fault.isSome then st.refuses i else st.goOn i request .forgetsExport
  | .forgetsExport => if fault.isSome then st.refuses i else st.ends i

inductive Event (Hash : Type) where
  | tick (ms : ℕ)
  | request (request : Request Hash)
  | step (i : ℕ) (fault : Option ℕ)

def Server.step (meet : String → String → Bool) (st : Server Hash) :
    Event Hash → Option (Server Hash)
  | .tick ms => some { st with clock := st.clock + ms }
  | .request request => some { st.goOn st.next request .checks with next := st.next + 1 }
  | .step i fault => (st.tasks[i]?).map fun (request, place) =>
    advance meet st i fault request place

/-- A server as it is set up: its host, and nothing given yet. -/
def machine (meet : String → String → Bool) (host : Names) (passwordHash : Hash) :
    Machine (Server Hash) (Event Hash) :=
  ⟨⟨⟨⟨(∅ : FMap ℕ _).insert 0 ⟨passwordHash, 0, true, none⟩, [], 0⟩, (∅ : FMap ℕ _).insert 0 host,
    ∅, ∅⟩, 0, 0, ∅, [], [], [], [], []⟩, Server.step meet⟩

/-- Nothing fails once its transaction has committed, and a link doesn't run out between its
user's reading the clock and their transaction. -/
def GoesWell (st : Server Hash) : Event Hash → Prop
  | .step i fault =>
    match st.tasks[i]? with
    | some (.useLink code _, .writes _ now) =>
      ∀ link ∈ st.db.links[code]?, now < link.expiresAt → st.clock < link.expiresAt
    | some (_, place) => place.after = true → fault = none
    | none => True
  | _ => True

/-- How often an invite was used, and may be. -/
def Invite.room (invite : Invite) : ℕ × Option ℕ := (invite.uses, invite.maxUses)

/-- What the grants have come to: an invite's uses are the accounts made with it, a link that
set a password is used, and one that still works is the last made for its person. -/
structure Granted (st : Server Hash) : Prop where
  uses : ∀ code invite, st.db.invites[code]? = some invite →
    (st.registered.filter fun e => e.1 == code).length = invite.uses ∧
      ∀ max ∈ invite.maxUses, invite.uses ≤ max
  invited : ∀ e ∈ st.registered, (st.db.invites[e.1]?).isSome = true
  used : ∀ code ∈ st.used, ∃ link, st.db.links[code]? = some link ∧ link.usedAt.isSome = true
  once : st.used.Nodup
  newest : ∀ code link, st.db.links[code]? = some link → link.usedAt = none →
    link.cancelledAt = none → SignIns.newest st.made link.userId = some code

section Granted
variable {meet : String → String → Bool} {st st' : Server Hash} {db db' : Db Hash}
  {i userId now code : ℕ} {fault : Option ℕ} {request : Request Hash} {place : Place}

/-- Nothing of the grants changes. -/
theorem Granted.same (h : Granted st) (hinvites : st'.db.invites = st.db.invites)
    (hlinks : st'.db.links = st.db.links) (hregistered : st'.registered = st.registered)
    (hused : st'.used = st.used) (hmade : st'.made = st.made) : Granted st' := by
  refine ⟨?_, ?_, ?_, ?_, ?_⟩
  · rw [hinvites, hregistered]
    exact h.uses
  · rw [hinvites, hregistered]
    exact h.invited
  · rw [hlinks, hused]
    exact h.used
  · rw [hused]
    exact h.once
  · rw [hlinks, hmade]
    exact h.newest

/-- Links are cancelled. -/
theorem Granted.cancels (h : Granted st) (userId now : ℕ) :
    Granted { st with db := { st.db with links := cancelFor st.db.links userId now } } := by
  refine ⟨h.uses, h.invited, fun code hcode => ?_, h.once,
    fun code link hlink hused hcancelled => ?_⟩
  · obtain ⟨link, hlink, hused⟩ := h.used code hcode
    refine ⟨link, ?_, hused⟩
    rw [cancelFor_at, hlink, Option.map_some]
    simp [Option.isNone_eq_false_iff.mpr hused]
  · rw [cancelFor_at] at hlink
    obtain ⟨old, hold, rfl⟩ := Option.map_eq_some_iff.mp hlink
    split at hused
    · next hcancels =>
      rw [if_pos hcancels] at hcancelled
      cases hcancelled
    · next hkeeps =>
      rw [if_neg hkeeps] at hcancelled ⊢
      exact h.newest code old hold hused hcancelled

/-- Invites change in nothing but when they end. -/
theorem Granted.invites (h : Granted st) {invites : FMap ℕ Invite}
    (hinvites : ∀ code : ℕ,
      (invites[code]?).map Invite.room = (st.db.invites[code]?).map Invite.room) :
    Granted { st with db := { st.db with invites := invites } } := by
  refine ⟨fun code invite hinvite => ?_, fun e he => ?_, h.used, h.once, h.newest⟩
  · have hsame := hinvites code
    rw [show invites[code]? = some invite from hinvite, Option.map_some] at hsame
    obtain ⟨old, hold, he⟩ := Option.map_eq_some_iff.mp hsame.symm
    obtain ⟨huses, hmax⟩ := Prod.mk.inj he
    rw [← huses, ← hmax]
    exact h.uses code old hold
  · have hsame := congrArg Option.isSome (hinvites e.1)
    rw [Option.isSome_map, Option.isSome_map] at hsame
    exact hsame.trans (h.invited e he)

theorem Granted.registers (h : Granted st) {names : Names} {passwordHash : Hash}
    (hdb : register meet st.db code userId names passwordHash now fault = .ok db) :
    Granted { st.grants (.register code userId names passwordHash) with db := db } := by
  obtain ⟨invite, hinvite, hroom, rfl⟩ := register_ok hdb
  obtain ⟨huses, -⟩ := h.uses code invite hinvite
  refine ⟨fun other found hfound => ?_, fun e he => ?_, h.used, h.once, h.newest⟩
  · simp only [Server.grants, insertUser, insert_at, List.filter_append,
      List.length_append] at hfound ⊢
    by_cases hother : other = code
    · rw [if_pos hother] at hfound
      cases hfound
      rw [hother, huses]
      exact ⟨by simp, fun max hmax => hroom max hmax⟩
    · rw [if_neg hother] at hfound
      have hnot : ((code, userId).1 == other) = false := beq_eq_false_iff_ne.mpr (Ne.symm hother)
      rw [List.filter_cons_of_neg (by simp [hnot]), List.filter_nil, List.length_nil, Nat.add_zero]
      exact h.uses other found hfound
  · simp only [Server.grants, insertUser, insert_at, List.mem_append, List.mem_singleton] at he ⊢
    split
    · rfl
    · next hne =>
      rcases he with hold | rfl
      · exact h.invited e hold
      · exact absurd rfl hne

theorem Granted.usesLink (h : Granted st) {passwordHash : Hash}
    (hdb : useLink st.db code userId passwordHash now fault = .ok db) :
    Granted { st.grants (.useLink code passwordHash) with db := db } := by
  obtain ⟨link, account, hlink, -, hused, hcancelled, -, -, -, rfl⟩ := useLink_ok hdb
  have hnew : code ∉ st.used := by
    intro hmem
    obtain ⟨found, hfound, hspent⟩ := h.used code hmem
    cases hlink.symm.trans hfound
    rw [hused] at hspent
    cases hspent
  refine ⟨h.uses, h.invited, fun other hother => ?_, ?_, fun other found hfound hunused hlive => ?_⟩
  · simp only [Server.grants, insert_at, List.mem_append, List.mem_singleton] at hother ⊢
    split
    · exact ⟨_, rfl, rfl⟩
    · next hne => exact h.used other (hother.resolve_right hne)
  · refine List.nodup_append.mpr ⟨h.once, List.nodup_singleton _, ?_⟩
    rintro a ha b hb rfl
    cases List.mem_singleton.mp hb
    exact hnew ha
  · simp only [insert_at] at hfound
    split at hfound
    · cases hfound
      cases hunused
    · exact h.newest other found hfound hunused hlive

theorem Granted.makes (h : Granted st) {maker : ℕ}
    (hdb : make st.db maker userId code now fault = .ok db) :
    Granted { st.grants (.make maker userId code) with db := db } := by
  obtain ⟨hnone, rfl⟩ := make_ok hdb
  have hcancels := h.cancels userId now
  refine ⟨h.uses, h.invited, fun other hother => ?_, h.once,
    fun other link hlink hunused hlive => ?_⟩
  · simp only [insert_at]
    split
    · next hsame =>
      obtain ⟨link, hlink, -⟩ := h.used other hother
      rw [hsame, hnone] at hlink
      cases hlink
    · exact hcancels.used other hother
  · simp only [insert_at] at hlink
    simp only [Server.grants, SignIns.newest_append]
    split at hlink
    · next hsame =>
      cases hlink
      rw [if_pos rfl, hsame]
    · have hnew := hcancels.newest other link hlink hunused hlive
      rw [if_neg]
      · exact hnew
      -- those of the person it is made for are cancelled
      · intro hsame
        rw [cancelFor_at] at hlink
        obtain ⟨old, -, he⟩ := Option.map_eq_some_iff.mp hlink
        split at he <;> cases he
        · cases hlive
        · next hkept => exact hkept (by simp [hsame, hunused, hlive])

theorem Granted.transacts (h : Granted st)
    (hdb : request.transact meet st.db userId now fault = .ok db) :
    Granted { st.grants request with db := db } := by
  cases request with
  | register code userId names passwordHash => exact h.registers hdb
  | useLink code passwordHash => exact h.usesLink hdb
  | make maker userId code => exact h.makes hdb
  | create maker code expiresInHours maxUses =>
    obtain ⟨hnone, rfl⟩ := create_ok hdb
    have hnew : st.registered.filter (fun e => e.1 == code) = [] := by
      refine List.filter_eq_nil_iff.mpr fun e he hsame => ?_
      have hthere := h.invited e he
      rw [beq_iff_eq.mp hsame, hnone] at hthere
      cases hthere
    refine ⟨fun other invite hinvite => ?_, fun e he => ?_, h.used, h.once, h.newest⟩
    · simp only [insert_at] at hinvite
      split at hinvite
      · next hsame =>
        cases hinvite
        dsimp only [Server.grants]
        rw [hsame, hnew]
        exact ⟨rfl, fun max _ => Nat.zero_le max⟩
      · exact h.uses other invite hinvite
    · simp only [insert_at]
      split
      · rfl
      · exact h.invited e he
  | revoke code =>
    rw [revoke_ok hdb]
    refine h.invites fun other => ?_
    rw [modify_at]
    split
    · rw [Option.map_map]
      rfl
    · rfl
  | remove userId =>
    rw [removeUser_ok hdb]
    refine Granted.same ((h.cancels userId now).invites (fun other => ?_)) rfl rfl rfl rfl rfl
    rw [Std.ExtTreeMap.getElem?_map, Option.map_map]
    refine Option.map_congr fun invite _ => ?_
    simp only [Function.comp_apply]
    split <;> rfl

theorem Granted.commits (h : Granted st)
    (hdb : request.transact meet st.db userId now fault = .ok db) :
    Granted (st.commits i userId request db) := by
  have hdone := h.transacts hdb
  rw [Server.commits]
  split <;> exact hdone.same rfl rfl rfl rfl rfl

theorem Granted.advance (h : Granted st) : Granted (advance meet st i fault request place) := by
  have hsame (st' : Server Hash) (hdb : st'.db = st.db)
      (hregistered : st'.registered = st.registered)
      (hused : st'.used = st.used) (hmade : st'.made = st.made) : Granted st' :=
    h.same (by rw [hdb]) (by rw [hdb]) hregistered hused hmade
  cases place with
  | checks =>
    rw [Grants.advance]
    split
    · exact hsame _ rfl rfl rfl rfl
    · split <;> exact hsame _ rfl rfl rfl rfl
  | readsClock userId => exact hsame _ rfl rfl rfl rfl
  | writes userId now =>
    rw [Grants.advance]
    split
    · exact hsame _ rfl rfl rfl rfl
    · next db hdb => exact h.commits hdb
  | issuesFamily userId =>
    rw [Grants.advance]
    split <;> exact h.same rfl rfl rfl rfl rfl
  | _ =>
    rw [Grants.advance]
    split <;> exact hsame _ rfl rfl rfl rfl

theorem Granted.step {event : Event Hash} (h : Granted st) (hs : st.step meet event = some st') :
    Granted st' := by
  cases event with
  | tick ms =>
    cases hs
    exact h.same rfl rfl rfl rfl rfl
  | request request =>
    cases hs
    exact h.same rfl rfl rfl rfl rfl
  | step i fault =>
    obtain ⟨⟨request, place⟩, -, rfl⟩ := Option.map_eq_some_iff.mp hs
    exact h.advance

end Granted

/-- Whose transactions committed: those of no request that was refused or failed, or is still
to write. -/
structure Answered (st : Server Hash) : Prop where
  tasks : ∀ (i : ℕ) (task : Request Hash × Place), st.tasks[i]? = some task →
    i < st.next ∧ (i ∈ st.committed → task.2.after = true)
  committed : ∀ i ∈ st.committed, i < st.next
  refused : ∀ i ∈ st.refused, i < st.next ∧ st.tasks[i]? = none ∧ i ∉ st.committed

section Answered
variable {meet : String → String → Bool} {st st' : Server Hash} {db db' : Db Hash}
  {i userId now code : ℕ} {fault : Option ℕ} {request : Request Hash} {place place' : Place}

theorem Answered.goOn (h : Answered st) (hi : st.tasks[i]? = some (request, place))
    (hafter : place.after = true → place'.after = true) : Answered (st.goOn i request place') := by
  refine ⟨fun j task hj => ?_, h.committed, fun j hj => ?_⟩
  · simp only [Server.goOn, insert_at] at hj
    split at hj
    · next hsame =>
      cases hj
      rw [hsame]
      exact ⟨(h.tasks i _ hi).1, fun hmem => hafter ((h.tasks i _ hi).2 hmem)⟩
    · exact h.tasks j task hj
  · obtain ⟨hlt, hnone, hnot⟩ := h.refused j hj
    refine ⟨hlt, ?_, hnot⟩
    simp only [Server.goOn, insert_at]
    rw [if_neg]
    · exact hnone
    · rintro rfl
      rw [hi] at hnone
      cases hnone

theorem Answered.ends (h : Answered st) (i : ℕ) : Answered (st.ends i) := by
  refine ⟨fun j task hj => ?_, h.committed, fun j hj => ?_⟩
  · simp only [Server.ends, erase_at] at hj
    split at hj
    · cases hj
    · exact h.tasks j task hj
  · obtain ⟨hlt, hnone, hnot⟩ := h.refused j hj
    refine ⟨hlt, ?_, hnot⟩
    simp only [Server.ends, erase_at]
    split
    · rfl
    · exact hnone

/-- Only a request that has written nothing may be refused or fail. -/
theorem Answered.refuses (h : Answered st) (hi : st.tasks[i]? = some (request, place))
    (hafter : place.after = false) : Answered (st.refuses i) := by
  obtain ⟨hlt, hnot⟩ := h.tasks i _ hi
  have hends := h.ends i
  refine ⟨hends.tasks, hends.committed, fun j hj => ?_⟩
  rcases List.mem_append.mp hj with hold | hnew
  · exact hends.refused j hold
  · cases List.mem_singleton.mp hnew
    refine ⟨hlt, ?_, fun hmem => ?_⟩
    · simp [Server.refuses, Server.ends]
    · have := hnot hmem
      rw [hafter] at this
      cases this

theorem next_after (h : request.next userId = some place) : place.after = true := by
  cases request <;> cases h <;> rfl

theorem Server.grants_kept (st : Server Hash) (request : Request Hash) :
    (st.grants request).tasks = st.tasks ∧ (st.grants request).next = st.next ∧
      (st.grants request).refused = st.refused := by
  cases request <;> exact ⟨rfl, rfl, rfl⟩

theorem Server.commits_at (j : ℕ) : (st.commits i userId request db).tasks[j]? =
    if j = i then (request.next userId).map fun place => (request, place) else st.tasks[j]? := by
  rw [commits]
  split
  · next place hnext =>
    rw [goOn, insert_at, hnext, (st.grants_kept request).1]
    rfl
  · next hnext =>
    rw [ends, erase_at, hnext, (st.grants_kept request).1]
    rfl

theorem Server.commits_kept : (st.commits i userId request db).next = st.next ∧
    (st.commits i userId request db).refused = st.refused ∧
    (st.commits i userId request db).committed = st.committed ++ [i] := by
  rw [commits]
  split <;> exact ⟨(st.grants_kept request).2.1, (st.grants_kept request).2.2, rfl⟩

theorem Answered.commits (h : Answered st) (hi : st.tasks[i]? = some (request, place)) :
    Answered (st.commits i userId request db) := by
  obtain ⟨hnext, hrefused, hcommitted⟩ :=
    @Server.commits_kept Hash st db i userId request
  have hlt := (h.tasks i _ hi).1
  refine ⟨fun j task hj => ?_, fun j hj => ?_, fun j hj => ?_⟩
  · rw [Server.commits_at] at hj
    rw [hnext, hcommitted]
    split at hj
    · next hsame =>
      obtain ⟨place', hplace, rfl⟩ := Option.map_eq_some_iff.mp hj
      rw [hsame]
      exact ⟨hlt, fun _ => next_after hplace⟩
    · next hne =>
      refine ⟨(h.tasks j task hj).1, fun hmem => (h.tasks j task hj).2 ?_⟩
      rcases List.mem_append.mp hmem with hold | hnew
      · exact hold
      · exact absurd (List.mem_singleton.mp hnew) hne
  · rw [hcommitted] at hj
    rw [hnext]
    rcases List.mem_append.mp hj with hold | hnew
    · exact h.committed j hold
    · rw [List.mem_singleton.mp hnew]
      exact hlt
  · rw [hrefused] at hj
    obtain ⟨hltj, hnone, hnot⟩ := h.refused j hj
    have hne : j ≠ i := by
      rintro rfl
      rw [hi] at hnone
      cases hnone
    rw [hnext, Server.commits_at, if_neg hne, hcommitted, List.mem_append, List.mem_singleton]
    exact ⟨hltj, hnone, not_or.mpr ⟨hnot, hne⟩⟩

theorem Answered.advance (h : Answered st) (hi : st.tasks[i]? = some (request, place))
    (hok : GoesWell st (.step i fault : Event Hash)) :
    Answered (advance meet st i fault request place) := by
  have hfault (hafter : place.after = true) : fault = none := by
    rw [GoesWell, hi] at hok
    cases request <;> cases place <;> first | exact hok rfl | cases hafter
  cases place with
  | checks =>
    rw [Grants.advance]
    split
    · exact h.refuses hi rfl
    · split
      · exact h.refuses hi rfl
      · exact h.goOn hi fun hafter => by cases hafter
  | hashes userId =>
    rw [Grants.advance]
    split
    · exact h.refuses hi rfl
    · exact h.goOn hi fun hafter => by cases hafter
  | readsClock userId => exact h.goOn hi fun hafter => by cases hafter
  | writes userId now =>
    rw [Grants.advance]
    split
    · exact h.refuses hi rfl
    · exact h.commits hi
  | readsGeneration userId =>
    cases hfault rfl
    have hgo : Answered (st.goOn i request (.issuesFamily userId)) := h.goOn hi fun _ => rfl
    exact hgo
  | issuesFamily userId =>
    cases hfault rfl
    have hgo : Answered (st.goOn i request .readsUser) := h.goOn hi fun _ => rfl
    exact ⟨hgo.tasks, hgo.committed, hgo.refused⟩
  | readsUser =>
    cases hfault rfl
    exact h.ends i
  | reloadsDms =>
    cases hfault rfl
    have hgo : Answered (st.goOn i request .forgetsExport) := h.goOn hi fun _ => rfl
    exact hgo
  | forgetsExport =>
    cases hfault rfl
    exact h.ends i

theorem Answered.step {event : Event Hash} (h : Answered st) (hok : GoesWell st event)
    (hs : st.step meet event = some st') : Answered st' := by
  cases event with
  | tick ms =>
    cases hs
    exact ⟨h.tasks, h.committed, h.refused⟩
  | request request =>
    cases hs
    have hold (j : ℕ) (hj : j < st.next) : j < st.next + 1 := Nat.lt_succ_of_lt hj
    refine ⟨fun j task hj => ?_, fun j hj => hold j (h.committed j hj), fun j hj => ?_⟩
    · simp only [Server.goOn, insert_at] at hj
      split at hj
      · next hsame =>
        cases hj
        rw [hsame]
        exact ⟨Nat.lt_succ_self _, fun hmem => absurd (h.committed _ hmem) (Nat.lt_irrefl _)⟩
      · exact ⟨hold j (h.tasks j task hj).1, (h.tasks j task hj).2⟩
    · obtain ⟨hlt, hnone, hnot⟩ := h.refused j hj
      refine ⟨hold j hlt, ?_, hnot⟩
      simp only [Server.goOn, insert_at]
      rw [if_neg (Nat.ne_of_lt hlt)]
      exact hnone
  | step i fault =>
    obtain ⟨⟨request, place⟩, hi, rfl⟩ := Option.map_eq_some_iff.mp hs
    exact h.advance hi hok

end Answered

/-- The invites, the links and the accounts are as they were. -/
def SameGrants (db db' : Db Hash) : Prop :=
  db'.invites = db.invites ∧ db'.links = db.links ∧ db'.names = db.names ∧
    db'.signIns.users = db.signIns.users

/-- A link that may set a password: it was not used or cancelled, no newer one was made for its
person, it has not run out, and its person is a member and here. -/
def Usable (st : Server Hash) (code : ℕ) : Prop :=
  ∃ link account, st.db.links[code]? = some link ∧ link.usedAt = none ∧ link.cancelledAt = none ∧
    SignIns.newest st.made link.userId = some code ∧ st.clock < link.expiresAt ∧
    st.db.signIns.users[link.userId]? = some account ∧ account.isHost = false ∧
    account.deactivatedAt = none

section Results
variable {meet : String → String → Bool} {st st' : Server Hash} {event : Event Hash} {code : ℕ}

/-- Nothing but a transaction that commits writes to what is granted. -/
theorem writes_by_commits (hs : st.step meet event = some st')
    (hsame : st'.committed = st.committed) :
    SameGrants st.db st'.db := by
  have hrefl : SameGrants st.db st.db := ⟨rfl, rfl, rfl, rfl⟩
  cases event with
  | tick ms =>
    cases hs
    exact hrefl
  | request request =>
    cases hs
    exact hrefl
  | step i fault =>
    obtain ⟨⟨request, place⟩, -, rfl⟩ := Option.map_eq_some_iff.mp hs
    cases place with
    | checks =>
      dsimp only [advance]
      split
      · exact hrefl
      · split <;> exact hrefl
    | readsClock userId => exact hrefl
    | writes userId now =>
      dsimp only [advance] at hsame ⊢
      split at hsame
      · exact hrefl
      · rw [Server.commits_kept.2.2] at hsame
        exact absurd hsame (by simp)
    | issuesFamily userId =>
      dsimp only [advance]
      split <;> exact hrefl
    | _ =>
      dsimp only [advance]
      split <;> exact hrefl

/-- Nor does a step that isn't the transaction's use a link. -/
theorem advance_used {i : ℕ} {fault : Option ℕ} {request : Request Hash} {place : Place}
    (hplace : ∀ userId now, place ≠ .writes userId now) :
    (advance meet st i fault request place).used = st.used := by
  cases place with
  | writes userId now => exact absurd rfl (hplace userId now)
  | checks =>
    rw [advance]
    split
    · rfl
    · split <;> rfl
  | readsClock userId => rfl
  | _ =>
    rw [advance]
    split <;> rfl

/-- A link that sets a password may. -/
theorem Granted.usable (h : Granted st) (hok : GoesWell st event)
    (hs : st.step meet event = some st')
    (hused : st'.used = st.used ++ [code]) : Usable st code := by
  have hnot (hkept : st'.used = st.used) : Usable st code := by
    rw [hkept] at hused
    exact absurd hused (by simp)
  cases event with
  | tick ms =>
    cases hs
    exact hnot rfl
  | request request =>
    cases hs
    exact hnot rfl
  | step i fault =>
    obtain ⟨⟨request, place⟩, hi, rfl⟩ := Option.map_eq_some_iff.mp hs
    by_cases hplace : ∃ userId now, place = .writes userId now
    · obtain ⟨userId, now, rfl⟩ := hplace
      dsimp only at hused
      rw [Grants.advance] at hused
      split at hused
      · exact absurd hused (by simp [Server.refuses, Server.ends])
      · next db hdb =>
        have hgranted : (st.grants request).used = st.used ++ [code] := by
          rw [← hused, Server.commits]
          split <;> rfl
        cases request with
        | useLink spent passwordHash =>
          cases List.append_cancel_left hgranted
          rw [GoesWell, hi] at hok
          obtain ⟨link, account, hlink, rfl, hunused, hlive, hnow, hactive, hhost, -⟩ :=
            useLink_ok hdb
          obtain ⟨haccount, hhere⟩ := SignIns.active_eq_some.mp hactive
          exact ⟨link, account, hlink, hunused, hlive, h.newest code link hlink hunused hlive,
            hok link hlink hnow, haccount, hhost, hhere⟩
        | _ => exact absurd hgranted (by simp [Server.grants])
    · exact hnot (advance_used fun userId now he => hplace ⟨userId, now, he⟩)

/-- In every run that goes well: the accounts made with an invite are its uses, and no more than
it allows; a link sets one password at most, and only while it may; and of a request that was
refused or failed nothing was written to invites, links or accounts. -/
theorem one_time_grants {host : Names} {passwordHash : Hash} {events : List (Event Hash)}
    (hm : (machine meet host passwordHash).Meets GoesWell events)
    (hr : (machine meet host passwordHash).run events = some st) :
    (∀ code invite, st.db.invites[code]? = some invite →
      (st.registered.filter fun e => e.1 == code).length = invite.uses ∧
        ∀ max ∈ invite.maxUses, (st.registered.filter fun e => e.1 == code).length ≤ max) ∧
    st.used.Nodup ∧
    (∀ event st' code, GoesWell st event → st.step meet event = some st' →
      st'.used = st.used ++ [code] → Usable st code) ∧
    (∀ i ∈ st.refused, i ∉ st.committed) ∧
    ∀ event st', st.step meet event = some st' → st'.committed = st.committed →
      SameGrants st.db st'.db := by
  have hgranted : Granted (machine meet host passwordHash).start :=
    ⟨fun _ _ h => (by simp [machine] at h), fun _ h => (by cases h), fun _ h => (by cases h),
      List.nodup_nil, fun _ _ h => (by simp [machine] at h)⟩
  have hanswered : Answered (machine meet host passwordHash).start :=
    ⟨fun _ _ h => (by simp [machine] at h), fun _ h => (by cases h), fun _ h => (by cases h)⟩
  have h : Granted st ∧ Answered st :=
    (machine meet host passwordHash).invariant_of_meets (I := fun st => Granted st ∧ Answered st)
      ⟨hgranted, hanswered⟩ (fun _ _ _ h hok hl => ⟨h.1.step hl, h.2.step hok hl⟩) hm hr
  refine ⟨fun code invite hinvite => ?_, h.1.once,
    fun _ _ _ hok hs hused => h.1.usable hok hs hused,
    fun i hi => (h.2.refused i hi).2.2, fun _ _ hs hsame => writes_by_commits hs hsame⟩
  obtain ⟨huses, hmax⟩ := h.1.uses code invite hinvite
  rw [huses]
  exact ⟨rfl, hmax⟩

end Results

instance (st : Server Hash) (event : Event Hash) : Decidable (GoesWell st event) := by
  cases event <;> unfold GoesWell <;> dsimp only <;> (try split) <;> infer_instance

/-- An invite, an account made with it, a link for that account, and its use. -/
def invitesAndLinks : List (Event ℕ) :=
  [.request (.create 0 5 none none), .step 0 none, .step 0 none, .step 0 none,
    .request (.register 5 1 ⟨"sam", "Sam"⟩ 70), .step 1 none, .step 1 none, .step 1 none,
    .step 1 none, .step 1 none, .step 1 none, .step 1 none,
    .request (.make 0 1 9), .step 2 none, .step 2 none, .step 2 none,
    .request (.useLink 9 71), .step 3 none, .step 3 none, .step 3 none, .step 3 none]

theorem one_time_grants_invitesAndLinks :
    ∃ st, (machine (· == ·) ⟨"ada", "Ada"⟩ 60).run invitesAndLinks = some st ∧ st.used = [9] ∧
      ((∀ code invite, st.db.invites[code]? = some invite →
        (st.registered.filter fun e => e.1 == code).length = invite.uses ∧
          ∀ max ∈ invite.maxUses, (st.registered.filter fun e => e.1 == code).length ≤ max) ∧
      st.used.Nodup ∧
      (∀ event st' code, GoesWell st event → st.step (· == ·) event = some st' →
        st'.used = st.used ++ [code] → Usable st code) ∧
      (∀ i ∈ st.refused, i ∉ st.committed) ∧
      ∀ event st', st.step (· == ·) event = some st' → st'.committed = st.committed →
        SameGrants st.db st'.db) :=
  ⟨_, rfl, rfl,
    @one_time_grants ℕ (· == ·) _ ⟨"ada", "Ada"⟩ 60 invitesAndLinks (by decide +kernel) rfl⟩

/-- Signing up whose answer fails after it committed: the request fails, and its invite's one
use and the account are as if it hadn't. And a link that runs out between its user's reading
the clock and their transaction sets a password. -/
theorem grant_spent_by_failed_request :
    (∃ st, (machine (· == ·) ⟨"ada", "Ada"⟩ 60).run (invitesAndLinks.take 9 ++ [.step 1 (some 0)]) =
      some st ∧ 1 ∈ st.refused ∧ 1 ∈ st.committed ∧ (st.db.invites[5]?).map Invite.uses = some 1 ∧
      (st.db.signIns.users[1]?).isSome = true) ∧
    ∃ st st', (machine (· == ·) ⟨"ada", "Ada"⟩ 60).run
      (invitesAndLinks.take 20 ++ [.tick 86400000]) = some st ∧
      st.step (· == ·) (.step 3 none) = some st' ∧ st'.used = st.used ++ [9] ∧ ¬ Usable st 9 := by
  refine ⟨⟨_, rfl, by decide +kernel, by decide +kernel, by decide +kernel, by decide +kernel⟩,
    _, _, rfl, rfl, rfl, ?_⟩
  rintro ⟨link, account, hlink, -, -, -, hnow, -⟩
  cases hlink
  exact absurd hnow (by decide +kernel)

end Linger.Grants
