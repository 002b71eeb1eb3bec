import Linger.Wire

/-! What the database holds of DMs: their rows, who is in them, and the
transactions that change either. -/
namespace Linger
open FiniteMap

/-- A row of `rooms` that is a DM, with its rows of `room_members`. `made` is
who it was made for, which no table keeps once somebody has gone. -/
structure DmRow where
  memberKey : Option (Finset UserId)
  members : List UserId
  made : List UserId
  deriving DecidableEq

structure DmStore where
  dms : FMap RoomId DmRow
  deactivated : Finset UserId

namespace DmStore

def empty : DmStore := ⟨∅, ∅⟩

/-- The key of a set of people, whichever order they are named in. -/
def memberKey (members : List UserId) : Finset UserId := members.toFinset

def byKey (db : DmStore) (key : Finset UserId) : Option RoomId :=
  (db.dms.toList.find? fun e => e.2.memberKey = some key).map Prod.fst

/-- Who can read a DM: a removed account's row stays, and doesn't count. -/
def activeOf (db : DmStore) (row : DmRow) : List UserId :=
  row.members.filter fun u => u ∉ db.deactivated

def members (db : DmStore) (roomId : RoomId) : List UserId :=
  ((db.dms[roomId]?).map db.activeOf).getD []

/-- Whether a person may see, and post in, a DM. -/
def visibleTo (db : DmStore) (roomId : RoomId) (userId : UserId) : Bool :=
  (db.members roomId).contains userId

/-- The insert of `create_or_find`, which loses to a DM of the same people. -/
def insertDm (db : DmStore) (roomId : RoomId) (people : List UserId) : Option DmStore :=
  if (db.byKey (memberKey people)).isSome then none
  else some { db with dms := db.dms.insert roomId ⟨some (memberKey people), people, people⟩ }

/-- `go` on one row: the key is cleared, and a DM nobody can read any more is emptied. -/
def rowWithout (db : DmStore) (row : DmRow) (userId : UserId) : DmRow :=
  let row := { row with memberKey := none, members := row.members.filter (· ≠ userId) }
  if db.activeOf row = [] then { row with members := [] } else row

/-- Whether the others are still in it once somebody is out of it. -/
def stays (db : DmStore) (row : DmRow) (userId : UserId) : Bool :=
  db.activeOf { row with members := row.members.filter (· ≠ userId) } ≠ []

/-- `leave`, with whether there is anybody to tell. Refused for a DM they
aren't in, and for one with one person. -/
def leave (db : DmStore) (roomId : RoomId) (userId : UserId) : Option (DmStore × Bool) :=
  match db.dms[roomId]? with
  | none => none
  | some row =>
    if userId ∉ row.members then none
    else if row.memberKey.isSome ∧ row.members.length ≤ 2 then none
    else some ({ db with dms := db.dms.insert roomId (db.rowWithout row userId) },
      db.stays row userId)

def remove (db : DmStore) (userId : UserId) : DmStore :=
  { db with deactivated := insert userId db.deactivated }

def restore (db : DmStore) (userId : UserId) : DmStore :=
  { db with deactivated := db.deactivated.erase userId }

/-- Whether a deleted account goes out of a DM it is in: not from a one-to-one
the friend can still read. -/
def leavesRow (db : DmStore) (userId : UserId) (row : DmRow) : Bool :=
  row.members.contains userId &&
    !((row.memberKey.isSome && row.members.length ≤ 2) &&
      (db.activeOf row).any fun u => u ≠ userId)

/-- An account's deletion: deactivated, and out of every group DM. -/
def delete (db : DmStore) (userId : UserId) : DmStore :=
  let db := db.remove userId
  { db with dms := db.dms.map fun _ row =>
      if db.leavesRow userId row then db.rowWithout row userId else row }

/-- The DMs a deletion leaves that somebody is still in. -/
def deletionTells (db : DmStore) (userId : UserId) : List RoomId :=
  let db := db.remove userId
  (db.dms.toList.filter fun e => db.leavesRow userId e.2 && db.stays e.2 userId).map Prod.fst

section Rows
variable {db db' : DmStore} {roomId : RoomId} {userId : UserId} {row : DmRow}

/-- Nobody comes into a DM after it was made, and a DM never stops being one. -/
def Grows (db db' : DmStore) : Prop :=
  ∀ (d : RoomId) (row : DmRow), db.dms[d]? = some row →
    ∃ row', db'.dms[d]? = some row' ∧ row'.made = row.made

def RowsMade (db : DmStore) : Prop :=
  ∀ (d : RoomId) (row : DmRow), db.dms[d]? = some row → ∀ u ∈ row.members, u ∈ row.made

theorem Grows.refl (db : DmStore) : Grows db db := fun _ row h => ⟨row, h, rfl⟩

theorem rowWithout_made (db : DmStore) (row : DmRow) (u : UserId) :
    (db.rowWithout row u).made = row.made := by
  unfold rowWithout
  dsimp only
  split <;> rfl

theorem mem_of_mem_rowWithout {v : UserId} (h : v ∈ (db.rowWithout row userId).members) :
    v ∈ row.members := by
  unfold rowWithout at h
  dsimp only at h
  split at h
  · cases h
  · exact List.mem_of_mem_filter h

theorem mem_of_mem_activeOf {v : UserId} (h : v ∈ db.activeOf row) : v ∈ row.members :=
  List.mem_of_mem_filter h

theorem insertDm_spec {people : List UserId} (hnew : db.dms[roomId]? = none) (hrows : RowsMade db)
    (h : db.insertDm roomId people = some db') :
    Grows db db' ∧ RowsMade db' ∧
      ∃ row, db'.dms[roomId]? = some row ∧ row.made = people := by
  simp only [insertDm, Option.ite_none_left_eq_some, Option.some.injEq] at h
  obtain ⟨-, rfl⟩ := h
  refine ⟨fun d row hd => ⟨row, ?_, rfl⟩, fun d row hd u hu => ?_,
    ⟨⟨some (memberKey people), people, people⟩, ?_, rfl⟩⟩
  · have hne : d ≠ roomId := by
      rintro rfl
      rw [hnew] at hd
      cases hd
    exact (insert_at _ _ _ _).trans ((if_neg hne).trans hd)
  · dsimp only at hd
    rw [insert_at] at hd
    split at hd
    · cases hd
      exact hu
    · exact hrows d row hd u hu
  · exact (insert_at _ _ _ _).trans (if_pos rfl)

theorem leave_spec {told : Bool} (hrows : RowsMade db)
    (h : db.leave roomId userId = some (db', told)) : Grows db db' ∧ RowsMade db' := by
  unfold leave at h
  cases hd : db.dms[roomId]? with
  | none =>
    rw [hd] at h
    cases h
  | some row =>
    rw [hd] at h
    simp only [Option.ite_none_left_eq_some, Option.some.injEq, Prod.mk.injEq] at h
    obtain ⟨-, -, rfl, -⟩ := h
    refine ⟨fun e row' he => ?_, fun e row' he u hu => ?_⟩
    · by_cases hed : e = roomId
      · subst hed
        rw [hd] at he
        cases he
        exact ⟨_, (insert_at _ _ _ _).trans (if_pos rfl), rowWithout_made db row userId⟩
      · exact ⟨row', (insert_at _ _ _ _).trans ((if_neg hed).trans he), rfl⟩
    · dsimp only at he
      rw [insert_at] at he
      split at he
      · cases he
        rw [rowWithout_made]
        exact hrows roomId row hd u (mem_of_mem_rowWithout hu)
      · exact hrows e row' he u hu

theorem delete_spec (hrows : RowsMade db) (u : UserId) :
    Grows db (db.delete u) ∧ RowsMade (db.delete u) := by
  have hat (d : RoomId) : (db.delete u).dms[d]? = (db.dms[d]?).map fun row =>
      if (db.remove u).leavesRow u row then (db.remove u).rowWithout row u else row :=
    Std.ExtTreeMap.getElem?_map
  refine ⟨fun d row hd => ?_, fun d row hd v hv => ?_⟩
  · rw [hat, hd]
    refine ⟨_, rfl, ?_⟩
    dsimp only
    split
    · exact rowWithout_made _ row u
    · rfl
  · rw [hat, Option.map_eq_some_iff] at hd
    obtain ⟨row', hd', rfl⟩ := hd
    split at hv
    · next hl =>
      rw [if_pos hl, rowWithout_made]
      exact hrows d row' hd' v (mem_of_mem_rowWithout hv)
    · next hl =>
      rw [if_neg hl]
      exact hrows d row' hd' v hv

/-- What is read of a DM's members is some of whom it was made for. -/
theorem members_made (hrows : RowsMade db) {d : RoomId} {u : UserId} (h : u ∈ db.members d) :
    ∃ row, db.dms[d]? = some row ∧ u ∈ row.made := by
  unfold members at h
  cases hd : db.dms[d]? with
  | none =>
    rw [hd] at h
    cases h
  | some row =>
    rw [hd] at h
    exact ⟨row, rfl, hrows d row hd u (mem_of_mem_activeOf h)⟩

end Rows
end DmStore
end Linger
