import Linger.Exports

/-! Which archives the store holds, and whose: what every step keeps as long as no forgetting, start
or stop of the server comes at the moment it would break it. -/
namespace Linger.Exports
open FiniteMap StepMachine

/-- Whose archive a removal, or a deletion, is still to forget. -/
def Flight.removalOf : Flight → Option UserId
  | .forgets user .removal _ => some user
  | _ => none

/-- Whose archive a flight forgets, whoever asked. -/
def Flight.forgetsOf : Flight → Option UserId
  | .forgets user _ _ => some user
  | _ => none

/-- Whose new row a start is about to put. -/
def Flight.insertsOf : Flight → Option UserId
  | .inserts user => some user
  | _ => none

def forgetting (st : State) (user : UserId) : Bool :=
  st.flights.toList.any fun entry => entry.2.removalOf = some user

theorem forgetting_iff {st : State} {user : UserId} : forgetting st user = true ↔
    ∃ (r : ℕ) (flight : Flight), st.flights[r]? = some flight ∧ flight.removalOf = some user := by
  simp only [forgetting, List.any_eq_true, Prod.exists,
    Std.ExtTreeMap.mem_toList_iff_getElem?_eq_some, decide_eq_true_eq]

/-- How a worker's row stands while it works. -/
def Task.Fits : Task → Row → Prop
  | .waiting, row => row.state = .queued ∧ row.objectKey = none
  | .building, row | .stored, row => row.state = .running ∧ row.objectKey = some (objectKey row.id)
  | .leftover, _ => False

/-- What a sweep knows of an entry it read: nobody works on it, and its object is where it says. -/
structure Sweeping.Fits (entry : Sweeping) (st : State) : Prop where
  idle : st.tasks[entry.id]? = none
  old : entry.id < st.next
  gone : entry.bytesGone = true → objectKey entry.id ∉ st.store
  there : entry.bytesGone = false → entry.key = some (objectKey entry.id)

structure Kept (st : State) : Prop where
  stored : ∀ key ∈ st.store, (∃ row ∈ st.rows, row.objectKey = some key) ∨
    st.tasks[key.id]? = some .stored ∨ st.tasks[key.id]? = some .leftover
  own : ∀ key ∈ st.store, ∀ row ∈ st.rows, row.id = key.id → row.objectKey = some key
  keys : ∀ row ∈ st.rows, ∀ key, row.objectKey = some key → key = objectKey row.id
  working : ∀ (id : ExportId) task, st.tasks[id]? = some task → ∀ row ∈ st.rows, row.id = id →
    task.Fits row
  worked : st.up = true → ∀ row ∈ st.rows, row.state.over = false →
    (st.tasks[row.id]?).isSome = true
  single : ∀ user, (st.rows.filter fun row => row.userId = user).length ≤ 1
  gone : ∀ row ∈ st.rows, row.userId ∈ st.removed → forgetting st row.userId = true
  sweeping : ∀ (r : ℕ) list, st.flights[r]? = some (.sweeps list) → ∀ entry ∈ list, entry.Fits st
  rowsOld : ∀ row ∈ st.rows, row.id < st.next
  tasksOld : ∀ (id : ExportId) task, st.tasks[id]? = some task → id < st.next
  storeOld : ∀ key ∈ st.store, key.id < st.next

/-- The condition on a step. What a `forget` deletes the row of has no archive in the store, unless
its worker is still to say so and will find no row; a start puts its row where the member has none,
and is not removed with nothing left to forget it; no start ends between its row and its worker; a
request ends early with no row of somebody removed that only it would forget; and the server stops
with no archive that has no row, and no row of somebody removed. -/
def Careful (st : State) : Label → Prop
  | .deletesRows r => ∀ flight ∈ st.flights[r]?, ∀ row ∈ st.rows, row.userId ∈ flight.forgetsOf →
      ∀ key ∈ row.objectKey, key ∈ st.store → st.tasks[key.id]? = some .stored
  | .inserts r => ∀ flight ∈ st.flights[r]?, ∀ user ∈ flight.insertsOf,
      (∀ row ∈ st.rows, row.userId ≠ user) ∧ (user ∈ st.removed → forgetting st user = true)
  | .insertsAlone _ => False
  | .ends r => ∀ row ∈ st.rows, row.userId ∈ st.removed → forgetting (st.over r) row.userId = true
  | .stops => (∀ key ∈ st.store, ∃ row ∈ st.rows, row.objectKey = some key) ∧
      ∀ row ∈ st.rows, row.userId ∉ st.removed
  | _ => True

instance (st : State) : (label : Label) → Decidable (Careful st label)
  | .deletesRows r => inferInstanceAs (Decidable (∀ flight ∈ st.flights[r]?, ∀ row ∈ st.rows,
      row.userId ∈ flight.forgetsOf → ∀ key ∈ row.objectKey, key ∈ st.store →
        st.tasks[key.id]? = some .stored))
  | .inserts r => inferInstanceAs (Decidable (∀ flight ∈ st.flights[r]?, ∀ user ∈ flight.insertsOf,
      (∀ row ∈ st.rows, row.userId ≠ user) ∧ (user ∈ st.removed → forgetting st user = true)))
  | .insertsAlone _ => isFalse id
  | .ends r => inferInstanceAs (Decidable (∀ row ∈ st.rows, row.userId ∈ st.removed →
      forgetting (st.over r) row.userId = true))
  | .stops =>
    inferInstanceAs (Decidable ((∀ key ∈ st.store, ∃ row ∈ st.rows, row.objectKey = some key) ∧
      ∀ row ∈ st.rows, row.userId ∉ st.removed))
  | .asks .. | .refuses _ | .hasRoom .. | .removes .. | .restores _ | .readsKeys _ | .deletesObject
      _ => isTrue trivial
  | .claims _ | .fails .. | .stores _ | .completes .. | .deletesOwn _ => isTrue trivial
  | .sweeps .. | .sweepsObject _ | .sweepsRow _ | .recovers _ => isTrue trivial

section Flights
variable {st : State} {r : ℕ}

theorem flights_at_at (r' : ℕ) (flight : Flight) :
    (st.at r flight).flights[r']? = if r' = r then some flight else st.flights[r']? :=
  insert_at _ _ _ _

theorem flights_over_at (r' : ℕ) :
    (st.over r).flights[r']? = if r' = r then none else st.flights[r']? :=
  erase_at _ _ _

/-- A removal that is still to forget somebody's archive is so unless its own flight went on. -/
theorem forgetting_at {user : UserId} {flight : Flight}
    (h : forgetting st user = true)
    (hr : ∀ held, st.flights[r]? = some held → held.removalOf = some user →
      flight.removalOf = some user) : forgetting (st.at r flight) user = true := by
  obtain ⟨r', held, hheld, hof⟩ := forgetting_iff.mp h
  apply forgetting_iff.mpr
  by_cases he : r' = r
  · exact ⟨r, flight, by rw [flights_at_at, if_pos rfl], hr held (he ▸ hheld) hof⟩
  · exact ⟨r', held, by rw [flights_at_at, if_neg he, hheld], hof⟩

theorem forgetting_over {user : UserId} (h : forgetting st user = true)
    (hr : ∀ held, st.flights[r]? = some held → held.removalOf ≠ some user) :
    forgetting (st.over r) user = true := by
  obtain ⟨r', held, hheld, hof⟩ := forgetting_iff.mp h
  have hne : r' ≠ r := by
    intro he
    rw [he] at hheld
    exact hr held hheld hof
  exact forgetting_iff.mpr ⟨r', held, by rw [flights_over_at, if_neg hne, hheld], hof⟩

/-- A flight that goes on: it forgets for whom it forgot, and if it sweeps, what it read. -/
theorem Kept.at (h : Kept st) {flight : Flight}
    (hof : ∀ held, st.flights[r]? = some held → ∀ user, held.removalOf = some user →
      flight.removalOf = some user)
    (hsweeps : ∀ list, flight = .sweeps list → ∀ entry ∈ list, entry.Fits st) :
    Kept (st.at r flight) where
  stored := h.stored
  own := h.own
  keys := h.keys
  working := h.working
  worked := h.worked
  single := h.single
  gone row hrow hremoved :=
    forgetting_at (h.gone row hrow hremoved) fun held hheld => hof held hheld row.userId
  sweeping r' list hl entry he := by
    rw [flights_at_at] at hl
    split at hl
    · obtain ⟨hidle, hold, hgone, hthere⟩ := hsweeps list (Option.some.inj hl) entry he
      exact ⟨hidle, hold, hgone, hthere⟩
    · obtain ⟨hidle, hold, hgone, hthere⟩ := h.sweeping r' list hl entry he
      exact ⟨hidle, hold, hgone, hthere⟩
  rowsOld := h.rowsOld
  tasksOld := h.tasksOld
  storeOld := h.storeOld

/-- A flight that ends, with another still to forget the archives that are to go. -/
theorem Kept.ends (h : Kept st) (hgone : Careful st (.ends r)) : Kept (st.over r) where
  stored := h.stored
  own := h.own
  keys := h.keys
  working := h.working
  worked := h.worked
  single := h.single
  gone := hgone
  sweeping r' list hl entry he := by
    rw [flights_over_at] at hl
    obtain ⟨-, hl⟩ := Option.ite_none_left_eq_some.mp hl
    obtain ⟨hidle, hold, hgone, hthere⟩ := h.sweeping r' list hl entry he
    exact ⟨hidle, hold, hgone, hthere⟩
  rowsOld := h.rowsOld
  tasksOld := h.tasksOld
  storeOld := h.storeOld

/-- A flight that ends with nobody's archive left to forget. -/
theorem Kept.over (h : Kept st) (hof : ∀ held, st.flights[r]? = some held → ∀ row ∈ st.rows,
    row.userId ∈ st.removed → held.removalOf ≠ some row.userId) : Kept (st.over r) :=
  h.ends fun row hrow hremoved =>
    forgetting_over (h.gone row hrow hremoved) fun held hheld => hof held hheld row hrow hremoved

/-- A store that holds less, and nothing a row or a worker does not know of. -/
theorem Kept.lessStored (h : Kept st) (p : Key → Bool) :
    Kept { st with store := st.store.filter p } where
  stored key hkey := h.stored key (List.mem_filter.mp hkey).1
  own key hkey := h.own key (List.mem_filter.mp hkey).1
  keys := h.keys
  working := h.working
  worked := h.worked
  single := h.single
  gone := h.gone
  sweeping r' list hl entry he := by
    obtain ⟨hidle, hold, hgone, hthere⟩ := h.sweeping r' list hl entry he
    exact ⟨hidle, hold, fun hg hkey => hgone hg (List.mem_filter.mp hkey).1, hthere⟩
  rowsOld := h.rowsOld
  tasksOld := h.tasksOld
  storeOld key hkey := h.storeOld key (List.mem_filter.mp hkey).1

/-- Fewer rows, none of them one whose archive is left in the store with nobody to say so. -/
theorem Kept.fewerRows (h : Kept st) (p : Row → Bool)
    (hgone : ∀ row ∈ st.rows, p row = false → ∀ key, row.objectKey = some key → key ∈ st.store →
      st.tasks[key.id]? = some .stored) : Kept { st with rows := st.rows.filter p } where
  stored key hkey := by
    rcases h.stored key hkey with ⟨row, hrow, hk⟩ | htask
    · by_cases hp : p row = true
      · exact Or.inl ⟨row, List.mem_filter.mpr ⟨hrow, hp⟩, hk⟩
      · exact Or.inr (Or.inl (hgone row hrow (Bool.eq_false_iff.mpr hp) key hk hkey))
    · exact Or.inr htask
  own key hkey row hrow := h.own key hkey row (List.mem_filter.mp hrow).1
  keys row hrow := h.keys row (List.mem_filter.mp hrow).1
  working id task htask row hrow := h.working id task htask row (List.mem_filter.mp hrow).1
  worked hup row hrow := h.worked hup row (List.mem_filter.mp hrow).1
  single user := by
    calc ((st.rows.filter p).filter fun row => row.userId = user).length
        ≤ (st.rows.filter fun row => row.userId = user).length :=
          ((List.filter_sublist).filter _).length_le
      _ ≤ 1 := h.single user
  gone row hrow := h.gone row (List.mem_filter.mp hrow).1
  sweeping r' list hl entry he := by
    obtain ⟨hidle, hold, hg, hthere⟩ := h.sweeping r' list hl entry he
    exact ⟨hidle, hold, hg, hthere⟩
  rowsOld row hrow := h.rowsOld row (List.mem_filter.mp hrow).1
  tasksOld := h.tasksOld
  storeOld := h.storeOld

end Flights

section Steps
variable {st st' : State} {r : ℕ} {id : ExportId} {user : UserId} {now : ℕ}

theorem comesIn_eq_some {flight : Flight} (h : comesIn st r flight = some st') :
    st.up = true ∧ st.flights[r]? = none ∧ st' = st.at r flight := by
  obtain ⟨hp, he⟩ := Option.ite_none_right_eq_some.mp h
  rw [Bool.and_eq_true, Option.isNone_iff_eq_none] at hp
  exact ⟨hp.1, hp.2, (Option.some.inj he).symm⟩

theorem Kept.removes (h : Kept st)
    (hs : comesIn { st with removed := user :: st.removed } r (.forgets user .removal .reads) =
      some st') : Kept st' := by
  obtain ⟨-, hfree, rfl⟩ := comesIn_eq_some hs
  have hfree : st.flights[r]? = none := hfree
  refine { h with gone := fun row hrow hremoved => ?_, sweeping := fun r' list hl entry he => ?_ }
  · rcases List.mem_cons.mp hremoved with hme | hremoved
    · exact forgetting_iff.mpr ⟨r, _, by rw [flights_at_at, if_pos rfl], by rw [hme]; rfl⟩
    · have hheld := h.gone row hrow hremoved
      obtain ⟨r', held, hat, hof⟩ := forgetting_iff.mp hheld
      have hne : r' ≠ r := by
        intro hr
        rw [hr, hfree] at hat
        exact absurd hat (by simp)
      exact forgetting_iff.mpr ⟨r', held, by rw [flights_at_at, if_neg hne]; exact hat, hof⟩
  · rw [flights_at_at] at hl
    split at hl
    · exact absurd hl (by simp)
    · obtain ⟨hidle, hold, hgone, hthere⟩ := h.sweeping r' list hl entry he
      exact ⟨hidle, hold, hgone, hthere⟩

theorem Kept.restores (h : Kept st) : Kept { st with removed := st.removed.filter (· ≠ user) } := by
  refine { h with gone := fun row hrow hremoved => ?_, sweeping := fun r' list hl entry he => ?_ }
  · exact h.gone row hrow (List.mem_filter.mp hremoved).1
  · obtain ⟨hidle, hold, hgone, hthere⟩ := h.sweeping r' list hl entry he
    exact ⟨hidle, hold, hgone, hthere⟩

/-- The rows of a member whose archive is forgotten go, and its flight with them or on to its
row. -/
theorem Kept.forgotten (h : Kept st) {by' : By}
    (hflight : st.flights[r]? = some (.forgets user by' (.deletes [])))
    (hc : Careful st (.deletesRows r)) : Kept (forgotten st r user by') := by
  have hrows : Kept (deleteRows st user) := by
    refine h.fewerRows _ fun row hrow hp key hk hkey => ?_
    have huser : row.userId = user := by simpa using hp
    exact hc _ hflight row hrow (by rw [huser]; rfl) key hk hkey
  have hothers (row : Row) (hrow : row ∈ (deleteRows st user).rows) : row.userId ≠ user := by
    simpa using (List.mem_filter.mp hrow).2
  have hflight : (deleteRows st user).flights[r]? = some (.forgets user by' (.deletes [])) :=
    hflight
  cases by' with
  | start =>
    refine hrows.at (fun held hheld user' hof => ?_) (by simp)
    rw [hflight, Option.some.injEq] at hheld
    rw [← hheld] at hof
    exact absurd hof (by simp [Flight.removalOf])
  | removal =>
    refine hrows.over fun held hheld row hrow _ hof => ?_
    rw [hflight, Option.some.injEq] at hheld
    rw [← hheld] at hof
    exact hothers row hrow (Option.some.inj hof).symm

theorem Kept.forget (h : Kept st) {label : Label} {by' : By} {stage : Forget}
    (hflight : st.flights[r]? = some (.forgets user by' stage))
    (hc : label = .deletesRows r → Careful st label)
    (hl : label = .readsKeys r ∨ label = .deletesObject r ∨ label = .deletesRows r)
    (hs : forget st r user by' label stage = some st') : Kept st' := by
  have hon (st : State) (hst : Kept st) (hf : st.flights[r]? = some (.forgets user by' stage))
      (next : Forget) :
      Kept (st.at r (.forgets user by' next)) := by
    refine hst.at (fun held hheld user' hof => ?_) (by simp)
    rw [hf, Option.some.injEq] at hheld
    rw [← hheld] at hof
    cases by' with
    | start => exact absurd hof (by simp [Flight.removalOf])
    | removal => exact hof
  rcases hl with rfl | rfl | rfl
  · cases stage with
    | reads =>
      cases hs
      exact hon st h hflight _
    | deletes keys => exact absurd hs (by simp [Exports.forget])
  · cases stage with
    | reads => exact absurd hs (by simp [Exports.forget])
    | deletes keys =>
      cases keys with
      | nil => exact absurd hs (by simp [Exports.forget])
      | cons key keys =>
        cases hs
        exact hon _ (h.lessStored _) hflight _
  · cases stage with
    | reads => exact absurd hs (by simp [Exports.forget])
    | deletes keys =>
      cases keys with
      | nil =>
        cases hs
        exact h.forgotten hflight (hc rfl)
      | cons key keys => exact absurd hs (by simp [Exports.forget])

/-- A new job: its row, and its task, under an id nothing was ever under. -/
theorem Kept.insertRow (h : Kept st) (hnone : ∀ row ∈ st.rows, row.userId ≠ user)
    (hremoved : user ∈ st.removed → forgetting st user = true) : Kept (insertRow st user) := by
  have hmem (row : Row) (hrow : row ∈ (Exports.insertRow st user).rows) :
      row ∈ st.rows ∨ row = ⟨st.next, user, .queued, none, 0, none⟩ := by
    rcases List.mem_append.mp hrow with hrow | hrow
    · exact Or.inl hrow
    · exact Or.inr (List.mem_singleton.mp hrow)
  have htask (id : ExportId) : (Exports.insertRow st user).tasks[id]? =
      if id = st.next then some .waiting else st.tasks[id]? := insert_at _ _ _ _
  refine ⟨fun key hkey => ?_, fun key hkey row hrow hid => ?_, fun row hrow key hk => ?_,
    fun id task ht row hrow hid => ?_, fun hup row hrow hover => ?_, fun other => ?_,
    fun row hrow hgone => ?_, fun r list hl entry he => ?_, fun row hrow => ?_,
    fun id task ht => ?_, fun key hkey => ?_⟩
  -- `stored`: an archive already there is under an id older than the new one.
  · have hne : key.id ≠ st.next := Nat.ne_of_lt (h.storeOld key hkey)
    rcases h.stored key hkey with ⟨row, hrow, hk⟩ | ht
    · exact Or.inl ⟨row, List.mem_append_left _ hrow, hk⟩
    · rw [htask, if_neg hne]
      exact Or.inr ht
  -- `own` and `keys`: the new row has no key yet.
  · rcases hmem row hrow with hrow | rfl
    · exact h.own key hkey row hrow hid
    · exact absurd hid.symm (Nat.ne_of_lt (h.storeOld key hkey))
  · rcases hmem row hrow with hrow | rfl
    · exact h.keys row hrow key hk
    · exact absurd hk (by simp)
  -- `working`: under the new id there is only the task that waits.
  · rw [htask] at ht
    rcases hmem row hrow with hrow | rfl
    · have hne : id ≠ st.next := by
        intro he
        exact absurd (hid.trans he) (Nat.ne_of_lt (h.rowsOld row hrow))
      rw [if_neg hne] at ht
      exact h.working id task ht row hrow hid
    · rw [if_pos hid.symm, Option.some.injEq] at ht
      rw [← ht]
      exact ⟨rfl, rfl⟩
  -- `worked`
  · rw [htask]
    rcases hmem row hrow with hrow | rfl
    · rw [if_neg (Nat.ne_of_lt (h.rowsOld row hrow))]
      exact h.worked hup row hrow hover
    · rw [if_pos rfl]
      rfl
  -- `single`: the member had no row before.
  · simp only [Exports.insertRow, List.filter_append, List.length_append]
    by_cases ho : other = user
    · have hnil : (st.rows.filter fun row => row.userId = other) = [] := by
        apply List.filter_eq_nil_iff.mpr
        intro row hrow
        simpa [ho] using hnone row hrow
      rw [hnil, List.length_nil, Nat.zero_add]
      exact List.length_filter_le _ _
    · have hnil : ([⟨st.next, user, .queued, none, 0, none⟩] : List Row).filter
          (fun row => row.userId = other) = [] := by
        simpa using Ne.symm ho
      rw [hnil]
      exact h.single other
  -- `gone`
  · rcases hmem row hrow with hrow | rfl
    · exact h.gone row hrow hgone
    · exact hremoved hgone
  -- `sweeping`: what a sweep read is older than the new id.
  · obtain ⟨hidle, hold, hg, hthere⟩ := h.sweeping r list hl entry he
    refine ⟨?_, Nat.lt_succ_of_lt hold, hg, hthere⟩
    rw [htask, if_neg (Nat.ne_of_lt hold), hidle]
  -- `rowsOld`, `tasksOld` and `storeOld`: the next id has moved on.
  · rcases hmem row hrow with hrow | rfl
    · exact Nat.lt_succ_of_lt (h.rowsOld row hrow)
    · exact Nat.lt_succ_self _
  · rw [htask] at ht
    split at ht
    · next hid => exact hid ▸ Nat.lt_succ_self _
    · exact Nat.lt_succ_of_lt (h.tasksOld id task ht)
  · exact Nat.lt_succ_of_lt (h.storeOld key hkey)

/-- A worker's step, on its row and its task: what it leaves fits, its row is over if it is done,
and an archive it stored is under the row's key or still its own to see to. -/
theorem Kept.works (h : Kept st) {held : Task} {next : Option Task} {tasks : FMap ExportId Task}
    {f : Row → Row}
    (hmine : st.tasks[id]? = some held)
    (htasks : ∀ other : ExportId, tasks[other]? = if other = id then next else st.tasks[other]?)
    (hsame : ∀ row, (f row).id = row.id ∧ (f row).userId = row.userId)
    (hkey : ∀ row ∈ st.rows, row.id = id →
      (f row).objectKey = row.objectKey ∨ (f row).objectKey = some (objectKey id))
    (hfits : ∀ row ∈ st.rows, row.id = id → ∀ task, next = some task → task.Fits (f row))
    (hover : ∀ row ∈ st.rows, row.id = id → (f row).state.over = false → next.isSome = true)
    (hstored : held = .stored ∨ held = .leftover → objectKey id ∈ st.store →
      (∃ row ∈ st.rows, row.id = id) ∨ next = some .stored ∨ next = some .leftover) :
    Kept { updateRow st id f with tasks := tasks } := by
  have hmem (row' : Row) (hrow' : row' ∈ (updateRow st id f).rows) :
      ∃ row ∈ st.rows, row'.id = row.id ∧ row'.userId = row.userId ∧
        ((row.id ≠ id ∧ row' = row) ∨ (row.id = id ∧ row' = f row)) := by
    obtain ⟨row, hrow, he⟩ := List.mem_map.mp hrow'
    refine ⟨row, hrow, ?_⟩
    by_cases hid : row.id = id
    · rw [if_pos hid] at he
      rw [← he]
      exact ⟨(hsame row).1, (hsame row).2, Or.inr ⟨hid, rfl⟩⟩
    · rw [if_neg hid] at he
      rw [← he]
      exact ⟨rfl, rfl, Or.inl ⟨hid, rfl⟩⟩
  have hput (row : Row) (hrow : row ∈ st.rows) (key : Key) (hk : row.objectKey = some key) :
      ∃ row' ∈ (updateRow st id f).rows, row'.objectKey = some key := by
    by_cases hid : row.id = id
    · refine ⟨f row, List.mem_map.mpr ⟨row, hrow, if_pos hid⟩, ?_⟩
      rcases hkey row hrow hid with he | he
      · rw [he, hk]
      · rw [he, h.keys row hrow key hk, hid]
    · exact ⟨row, List.mem_map.mpr ⟨row, hrow, if_neg hid⟩, hk⟩
  refine ⟨fun key hin => ?_, fun key hin row' hrow' he => ?_, fun row' hrow' key hk => ?_,
    fun other task ht row' hrow' hid => ?_, fun hup row' hrow' ho => ?_, fun user => ?_,
    fun row' hrow' hgone => ?_, fun r list hl entry he => ?_, fun row' hrow' => ?_,
    fun other task ht => ?_, h.storeOld⟩
  -- `stored`: by a row, which keeps its key, or by a task, which is another's or this one.
  · rcases h.stored key hin with ⟨row, hrow, hk⟩ | ht
    · exact Or.inl (hput row hrow key hk)
    · by_cases hid : key.id = id
      · have hheld : held = .stored ∨ held = .leftover := by
          rw [hid, hmine] at ht
          exact ht.imp Option.some.inj Option.some.inj
        have hkeyed : key = objectKey id := congrArg Key.mk hid
        rcases hstored hheld (hkeyed ▸ hin) with ⟨row, hrow, hrid⟩ | hnext
        · exact Or.inl (hput row hrow key (h.own key hin row hrow (hrid.trans hid.symm)))
        · refine Or.inr ?_
          rw [htasks, if_pos hid]
          exact hnext
      · refine Or.inr ?_
        rw [htasks, if_neg hid]
        exact ht
  -- `own`: a worker only ever writes the key that its archive is under.
  · obtain ⟨row, hrow, hrid, -, ⟨hid, rfl⟩ | ⟨hid, rfl⟩⟩ := hmem row' hrow'
    · exact h.own key hin _ hrow he
    · have hk := h.own key hin row hrow (hrid.symm.trans he)
      rcases hkey row hrow hid with hsk | hsk
      · rw [hsk, hk]
      · rw [hsk, h.keys row hrow key hk, hid]
  · obtain ⟨row, hrow, hrid, -, ⟨hid, rfl⟩ | ⟨hid, rfl⟩⟩ := hmem row' hrow'
    · exact h.keys _ hrow key hk
    · rw [hrid]
      rcases hkey row hrow hid with hsk | hsk
      · rw [hsk] at hk
        exact h.keys row hrow key hk
      · rw [hsk, Option.some.injEq] at hk
        rw [← hk, hid]
  -- `working` and `worked`: the other rows and tasks stand as they were.
  · rw [htasks] at ht
    obtain ⟨row, hrow, hrid, -, ⟨hne, rfl⟩ | ⟨he, rfl⟩⟩ := hmem row' hrow'
    · rw [if_neg fun ho => hne (hid.trans ho)] at ht
      exact h.working other task ht _ hrow hid
    · rw [if_pos (hid.symm.trans (hrid.trans he))] at ht
      exact hfits row hrow he task ht
  · obtain ⟨row, hrow, hrid, -, ⟨hne, rfl⟩ | ⟨he, rfl⟩⟩ := hmem row' hrow'
    · rw [htasks, if_neg hne]
      exact h.worked hup _ hrow ho
    · rw [htasks, if_pos (hrid.trans he)]
      exact hover row hrow he ho
  -- `single`: a worker changes no row's owner.
  · have hcount : ((updateRow st id f).rows.filter fun row => row.userId = user) =
        (st.rows.filter fun row => row.userId = user).map fun row => if row.id = id then f row
          else row := by
      rw [updateRow, List.filter_map]
      congr 1
      apply List.filter_congr
      intro row _
      rw [Function.comp_apply]
      split
      · rw [(hsame row).2]
      · rfl
    rw [hcount, List.length_map]
    exact h.single user
  · obtain ⟨row, hrow, -, huser, -⟩ := hmem row' hrow'
    rw [huser] at hgone ⊢
    exact h.gone row hrow hgone
  · obtain ⟨hidle, hold, hg, hthere⟩ := h.sweeping r list hl entry he
    -- A sweep holds only jobs nobody works on, so it does not hold this one.
    have hne : entry.id ≠ id := by
      intro hid
      rw [hid, hmine] at hidle
      exact absurd hidle (by simp)
    refine ⟨?_, hold, hg, hthere⟩
    rw [htasks, if_neg hne, hidle]
  · obtain ⟨row, hrow, hrid, -⟩ := hmem row' hrow'
    rw [hrid]
    exact h.rowsOld row hrow
  · rw [htasks] at ht
    split at ht
    · next hid =>
      rw [hid]
      exact h.tasksOld id held hmine
    · exact h.tasksOld other task ht

theorem updateRow_self (st : State) (id : ExportId) : (updateRow st id fun row => row) = st := by
  simp [updateRow]

/-- A worker's step that only moves its task, which has no row, or keeps fitting the row it has. -/
theorem Kept.moves (h : Kept st) {held : Task} {next : Option Task} {tasks : FMap ExportId Task}
    (hmine : st.tasks[id]? = some held)
    (htasks : ∀ other : ExportId, tasks[other]? = if other = id then next else st.tasks[other]?)
    (hfits : ∀ row ∈ st.rows, row.id = id → ∀ task, next = some task → task.Fits row)
    (hover : ∀ row ∈ st.rows, row.id = id → row.state.over = false → next.isSome = true)
    (hstored : held = .stored ∨ held = .leftover → objectKey id ∈ st.store →
      next = some .stored ∨ next = some .leftover) :
    Kept { st with tasks := tasks } := by
  have hworks := h.works (f := fun row => row) hmine htasks (fun _ => ⟨rfl, rfl⟩)
    (fun _ _ _ => Or.inl rfl) hfits hover
    (fun hs hin => Or.inr (hstored hs hin))
  rwa [updateRow_self] at hworks

theorem tasks_insert_at (task : Task) (other : ExportId) :
    (st.tasks.insert id task)[other]? = if other = id then some task else st.tasks[other]? :=
  insert_at _ _ _ _

theorem tasks_erase_at (other : ExportId) :
    (st.tasks.erase id)[other]? = if other = id then none else st.tasks[other]? := erase_at _ _ _

theorem hasRow_iff : hasRow st id = true ↔ ∃ row ∈ st.rows, row.id = id := by
  simp [hasRow]

theorem Kept.claim (h : Kept st) (hmine : st.tasks[id]? = some .waiting) : Kept (claim st id) := by
  unfold Exports.claim
  split
  · refine h.works hmine (tasks_insert_at .building) (fun row => ?_) (fun row hrow hid => ?_)
      (fun row hrow hid task ht => ?_) (fun _ _ _ _ => rfl) (by simp)
    · split <;> exact ⟨rfl, rfl⟩
    · split
      · exact Or.inr rfl
      · exact Or.inl rfl
    · obtain ⟨hqueued, -⟩ := h.working id _ hmine row hrow hid
      rw [Option.some.injEq] at ht
      rw [← ht, if_pos hqueued]
      exact ⟨rfl, congrArg some (congrArg objectKey hid.symm)⟩
  · next hno =>
    -- The row was there to claim as long as it was there at all.
    have hgone (row : Row) (hrow : row ∈ st.rows) (hid : row.id = id) : False := by
      apply hno
      obtain ⟨hqueued, -⟩ := h.working id _ hmine row hrow hid
      exact List.any_eq_true.mpr ⟨row, hrow, by simp [hid, hqueued]⟩
    exact h.moves hmine tasks_erase_at (fun row hrow hid => (hgone row hrow hid).elim)
      (fun row hrow hid => (hgone row hrow hid).elim) (by simp)

theorem Kept.failRow (h : Kept st) (hmine : st.tasks[id]? = some .building) :
    Kept (failRow st id now) :=
  h.works hmine tasks_erase_at (fun _ => ⟨rfl, rfl⟩) (fun _ _ _ => Or.inl rfl)
    (by simp) (fun _ _ _ hover => absurd hover (by simp [JobState.over])) (by simp)

/-- An archive put in the store by the worker that is still to say so. -/
theorem Kept.storing (h : Kept st) (hmine : st.tasks[id]? = some .stored) :
    Kept { st with store := st.store ++ [objectKey id] } := by
  have hmem (key : Key) (hkey : key ∈ st.store ++ [objectKey id]) :
      key ∈ st.store ∨ key = objectKey id := by
    rcases List.mem_append.mp hkey with hkey | hkey
    · exact Or.inl hkey
    · exact Or.inr (List.mem_singleton.mp hkey)
  refine { h with stored := fun key hkey => ?_, own := fun key hkey row hrow hid => ?_,
                  sweeping := fun r list hl entry he => ?_, storeOld := fun key hkey => ?_ }
  · rcases hmem key hkey with hkey | rfl
    · exact h.stored key hkey
    · exact Or.inr (Or.inl hmine)
  · rcases hmem key hkey with hkey | rfl
    · exact h.own key hkey row hrow hid
    · obtain ⟨-, hk⟩ := h.working id _ hmine row hrow hid
      rw [hk, show row.id = id from hid]
  · obtain ⟨hidle, hold, hg, hthere⟩ := h.sweeping r list hl entry he
    refine ⟨hidle, hold, fun hgone hkey => ?_, hthere⟩
    rcases hmem _ hkey with hkey | hkey
    · exact hg hgone hkey
    · rw [show entry.id = id from congrArg Key.id hkey, hmine] at hidle
      exact absurd hidle (by simp)
  · rcases hmem key hkey with hkey | rfl
    · exact h.storeOld key hkey
    · exact h.tasksOld id _ hmine

theorem Kept.stores (h : Kept st) (hmine : st.tasks[id]? = some .building) :
    Kept ({ st with store := st.store ++ [objectKey id] }.task id .stored) := by
  have hmoved : Kept (st.task id .stored) := by
    refine h.moves hmine (tasks_insert_at .stored) (fun row hrow hid task ht => ?_)
      (fun _ _ _ _ => rfl) (by simp)
    rw [Option.some.injEq] at ht
    rw [← ht]
    exact h.working id _ hmine row hrow hid
  exact hmoved.storing ((tasks_insert_at .stored id).trans (if_pos rfl))

/-- The completing update finds the row under the key its archive is stored under, or no row at
all. -/
theorem Kept.complete (h : Kept st) {size : ℕ} (hmine : st.tasks[id]? = some .stored) :
    Kept (complete st id size now) := by
  unfold Exports.complete
  split
  · next hrow =>
    exact h.works hmine tasks_erase_at (fun _ => ⟨rfl, rfl⟩) (fun _ _ _ => Or.inl rfl) (by simp)
      (fun _ _ _ hover => absurd hover (by simp [JobState.over]))
        (fun _ _ => Or.inl (hasRow_iff.mp hrow))
  · next hrow =>
    exact h.moves hmine (tasks_insert_at .leftover)
      (fun row hin hid => absurd (hasRow_iff.mpr ⟨row, hin, hid⟩) hrow) (fun _ _ _ _ => rfl)
      (fun _ _ => Or.inr rfl)

theorem Kept.deletesOwn (h : Kept st) (hmine : st.tasks[id]? = some .leftover) :
    Kept ({ st with store := st.store.filter (· ≠ objectKey id) }.taskOver id) := by
  have hno (row : Row) (hrow : row ∈ st.rows) (hid : row.id = id) : False :=
    h.working id _ hmine row hrow hid
  refine (h.lessStored _).moves hmine tasks_erase_at (fun row hrow hid => (hno row hrow hid).elim)
    (fun row hrow hid => (hno row hrow hid).elim) (fun _ hin => ?_)
  exact absurd (List.mem_filter.mp hin).2 (by simp)

theorem Kept.work (h : Kept st) {label : Label} {task : Task} (hmine : st.tasks[id]? = some task)
    (hs : work st id label task = some st') : Kept st' := by
  unfold Exports.work at hs
  split at hs
  · obtain ⟨-, he⟩ := Option.ite_none_right_eq_some.mp hs
    cases he
    exact h.claim hmine
  · cases hs
    exact h.failRow hmine
  · cases hs
    exact h.stores hmine
  · cases hs
    exact h.complete hmine
  · cases hs
    exact h.deletesOwn hmine
  · exact absurd hs (by simp)

/-- What a sweep reads fits: those jobs are over, so nobody works on them, and what they stored is
under the key their row has. -/
theorem Kept.dueRows (h : Kept st) : ∀ entry ∈ dueRows st now, entry.Fits st := by
  intro entry hentry
  obtain ⟨row, hrow, rfl⟩ := List.mem_map.mp hentry
  obtain ⟨hrow, hdue⟩ := List.mem_filter.mp hrow
  have hover : row.state.over = true := (Bool.and_eq_true_iff.mp hdue).1
  refine ⟨?_, h.rowsOld row hrow, fun hgone hkey => ?_, fun hthere => ?_⟩
  · cases htask : (st.tasks[row.id]? : Option Task) with
    | none => rfl
    | some task =>
      have hfits := h.working row.id task htask row hrow rfl
      cases task with
      | waiting => exact absurd hover (by simp [hfits.1, JobState.over])
      | building => exact absurd hover (by simp [hfits.1, JobState.over])
      | stored => exact absurd hover (by simp [hfits.1, JobState.over])
      | leftover => exact hfits.elim
  · rw [h.own _ hkey row hrow rfl] at hgone
    exact absurd hgone (by simp)
  · rw [Option.isNone_eq_false_iff] at hthere
    obtain ⟨key, hk⟩ := Option.isSome_iff_exists.mp hthere
    have hkey : row.objectKey = some key := hk
    rw [← h.keys row hrow key hkey]
    exact hkey

theorem Kept.sweep (h : Kept st) {label : Label} {list : List Sweeping}
    (hflight : st.flights[r]? = some (.sweeps list)) (hs : sweep st r label list = some st') :
    Kept st' := by
  have hnoRemoval (held : Flight) (hheld : st.flights[r]? = some held) (user : UserId) :
      held.removalOf ≠ some user := by
    rw [hflight, Option.some.injEq] at hheld
    rw [← hheld]
    simp [Flight.removalOf]
  unfold Exports.sweep at hs
  split at hs
  · next _ entry list =>
    obtain ⟨hbytes, he⟩ := Option.ite_none_left_eq_some.mp hs
    cases he
    have hfits := h.sweeping r _ hflight
    have hkey := (hfits entry List.mem_cons_self).there (Bool.eq_false_iff.mpr hbytes)
    refine (h.lessStored _).at
      (fun held hheld user hof => absurd hof (hnoRemoval held hheld user)) ?_
    intro other hother swept hswept
    cases hother
    rcases List.mem_cons.mp hswept with rfl | hswept
    · obtain ⟨hidle, hold, -, -⟩ := hfits entry List.mem_cons_self
      refine ⟨hidle, hold, fun _ hin => ?_, fun hno => absurd hno (by simp)⟩
      exact absurd (List.mem_filter.mp hin).2 (by simp [hkey])
    · obtain ⟨hidle, hold, hg, hthere⟩ := hfits swept (List.mem_cons_of_mem _ hswept)
      exact ⟨hidle, hold, fun hgone hin => hg hgone (List.mem_filter.mp hin).1, hthere⟩
  · next _ entry list =>
    obtain ⟨hbytes, he⟩ := Option.ite_none_right_eq_some.mp hs
    cases he
    have hfits := h.sweeping r _ hflight
    have hrows : Kept (withoutRow st entry.id) := by
      refine h.fewerRows _ fun row hrow hp key hk hin => ?_
      have hid : row.id = entry.id := by simpa using hp
      rw [h.keys row hrow key hk, hid] at hin
      exact absurd hin ((hfits entry List.mem_cons_self).gone hbytes)
    split
    · exact hrows.over fun held hheld row _ _ => hnoRemoval held hheld row.userId
    · refine hrows.at (fun held hheld user hof => absurd hof (hnoRemoval held hheld user)) ?_
      intro other hother swept hswept
      cases hother
      obtain ⟨hidle, hold, hg, hthere⟩ := hfits swept (List.mem_cons_of_mem _ hswept)
      exact ⟨hidle, hold, hg, hthere⟩
  · exact absurd hs (by simp)

theorem Kept.stops (h : Kept st) (hc : Careful st .stops) :
    Kept { st with flights := ∅, tasks := ∅, up := false } where
  stored key hkey := Or.inl (hc.1 key hkey)
  own := h.own
  keys := h.keys
  working id task ht := absurd ht (by simp)
  worked hup := absurd hup (by simp)
  single := h.single
  gone row hrow hremoved := absurd hremoved (hc.2 row hrow)
  sweeping r list hl := absurd hl (by simp)
  rowsOld := h.rowsOld
  tasksOld id task ht := absurd ht (by simp)
  storeOld := h.storeOld

/-- After a stop nobody works and nobody forgets: the jobs that were under way have failed, under
the keys they had. -/
theorem Kept.recover (h : Kept st) (htasks : ∀ id : ExportId, st.tasks[id]? = none)
    (hflights : ∀ (r : ℕ) list, st.flights[r]? ≠ some (.sweeps list)) : Kept (recover st now) := by
  have hmem (row' : Row) (hrow' : row' ∈ (Exports.recover st now).rows) :
      ∃ row ∈ st.rows, row'.id = row.id ∧
      row'.userId = row.userId ∧ row'.objectKey = row.objectKey ∧ row'.state.over = true := by
    obtain ⟨row, hrow, rfl⟩ := List.mem_map.mp hrow'
    refine ⟨row, hrow, ?_⟩
    split
    · next hover => exact ⟨rfl, rfl, rfl, hover⟩
    · exact ⟨rfl, rfl, rfl, rfl⟩
  refine ⟨fun key hkey => ?_, fun key hkey row' hrow' hid => ?_, fun row' hrow' key hk => ?_,
    fun id task ht => ?_, fun _ row' hrow' ho => ?_, fun user => ?_, fun row' hrow' hremoved => ?_,
    fun r list hl => absurd hl (hflights r list), fun row' hrow' => ?_, h.tasksOld, h.storeOld⟩
  -- `stored`: nobody works, so every archive has its row.
  · rcases h.stored key hkey with ⟨row, hrow, hk⟩ | ht
    · refine Or.inl ⟨_, List.mem_map.mpr ⟨row, hrow, rfl⟩, ?_⟩
      split <;> exact hk
    · rw [htasks] at ht
      exact absurd ht (by simp)
  · obtain ⟨row, hrow, hrid, -, hk, -⟩ := hmem row' hrow'
    rw [hk]
    exact h.own key hkey row hrow (hrid.symm.trans hid)
  · obtain ⟨row, hrow, hrid, -, hsame, -⟩ := hmem row' hrow'
    rw [hrid]
    exact h.keys row hrow key (hsame.symm.trans hk)
  · rw [show (Exports.recover st now).tasks[id]? = none from htasks id] at ht
    exact absurd ht (by simp)
  · obtain ⟨row, -, -, -, -, hover⟩ := hmem row' hrow'
    rw [ho] at hover
    exact absurd hover (by simp)
  -- `single`: a job that is failed keeps its owner.
  · have hcount : ((Exports.recover st now).rows.filter fun row => row.userId = user) =
        (st.rows.filter fun row => row.userId = user).map fun row =>
          if row.state.over then row
            else { row with state := .failed, finishedAt := some now } := by
      rw [Exports.recover, List.filter_map]
      congr 1
      apply List.filter_congr
      intro row _
      rw [Function.comp_apply]
      split <;> rfl
    rw [hcount, List.length_map]
    exact h.single user
  · obtain ⟨row, hrow, -, huser, -⟩ := hmem row' hrow'
    rw [huser] at hremoved ⊢
    exact h.gone row hrow hremoved
  · obtain ⟨row, hrow, hrid, -⟩ := hmem row' hrow'
    rw [hrid]
    exact h.rowsOld row hrow

end Steps

/-- While the server is down nothing is in flight and nobody works. -/
def Still (st : State) : Prop :=
  st.up = false → (∀ r : ℕ, st.flights[r]? = none) ∧ ∀ id : ExportId, st.tasks[id]? = none

section Runs
variable {onS3 : Bool} {st st' : State} {label : Label}

theorem step_kept (h : Kept st) (hstill : Still st) (hc : Careful st label)
    (hs : step onS3 st label = some st') : Kept st' := by
  -- A flight that goes on and is no removal's, before or after.
  have hplain {r : ℕ} {flight next : Flight} (hflight : st.flights[r]? = some flight)
      (hof : flight.removalOf = none) (hsweeps : ∀ list, next ≠ .sweeps list) :
        Kept (st.at r next) := by
    refine h.at (fun held hheld user hheldOf => ?_) fun list hl => absurd hl (hsweeps list)
    rw [hflight, Option.some.injEq] at hheld
    rw [← hheld, hof] at hheldOf
    exact absurd hheldOf (by simp)
  unfold step at hs
  split at hs
  -- `.asks`
  · obtain ⟨-, hs⟩ := Option.ite_none_left_eq_some.mp hs
    obtain ⟨-, hfree, rfl⟩ := comesIn_eq_some hs
    refine h.at (fun held hheld => ?_) (by simp)
    rw [hfree] at hheld
    exact absurd hheld (by simp)
  -- `.removes`, and `.restores`
  · exact h.removes hs
  · obtain ⟨-, he⟩ := Option.ite_none_right_eq_some.mp hs
    cases he
    exact h.restores
  -- `.refuses`
  · split at hs
    · next user hflight =>
      cases hs
      refine h.over fun held hheld row _ _ => ?_
      rw [hflight, Option.some.injEq] at hheld
      rw [← hheld]
      simp [Flight.removalOf]
    · exact absurd hs (by simp)
  -- `.ends`: the condition says another removal still forgets what is to go.
  · obtain ⟨-, he⟩ := Option.ite_none_right_eq_some.mp hs
    cases he
    exact h.ends hc
  -- `.hasRoom`
  · split at hs
    · next user hflight =>
      obtain ⟨-, he⟩ := Option.ite_none_right_eq_some.mp hs
      cases he
      exact hplain hflight rfl (by simp)
    · exact absurd hs (by simp)
  -- `.readsKeys`, `.deletesObject`, `.deletesRows`: only the last needs the condition.
  · split at hs
    · next hflight => exact h.forget hflight (by simp) (Or.inl rfl) hs
    · exact absurd hs (by simp)
  · split at hs
    · next hflight => exact h.forget hflight (by simp) (Or.inr (Or.inl rfl)) hs
    · exact absurd hs (by simp)
  · split at hs
    · next hflight => exact h.forget hflight (fun _ => hc) (Or.inr (Or.inr rfl)) hs
    · exact absurd hs (by simp)
  -- `.inserts`
  · next r =>
    split at hs
    · next user hflight =>
      cases hs
      obtain ⟨hnone, hremoved⟩ := hc _ hflight user rfl
      refine (h.insertRow hnone hremoved).over fun held hheld row _ _ => ?_
      have hheld : st.flights[r]? = some held := hheld
      rw [hflight, Option.some.injEq] at hheld
      rw [← hheld]
      simp [Flight.removalOf]
    · exact absurd hs (by simp)
  -- `.insertsAlone` never meets the condition.
  · exact hc.elim
  -- the worker's five
  iterate 5
    · split at hs
      · next hmine => exact h.work hmine hs
      · exact absurd hs (by simp)
  -- `.sweeps`
  · split at hs
    · exact absurd hs (by simp)
    · obtain ⟨-, hfree, rfl⟩ := comesIn_eq_some hs
      refine h.at (fun held hheld => ?_) fun list hl entry hentry => ?_
      · rw [hfree] at hheld
        exact absurd hheld (by simp)
      · cases hl
        exact h.dueRows entry hentry
  -- `.sweepsObject` and `.sweepsRow`
  · split at hs
    · next hflight => exact h.sweep hflight hs
    · exact absurd hs (by simp)
  · split at hs
    · next hflight => exact h.sweep hflight hs
    · exact absurd hs (by simp)
  -- `.stops`
  · obtain ⟨-, he⟩ := Option.ite_none_right_eq_some.mp hs
    cases he
    exact h.stops hc
  -- `.recovers`: a server that is down has no sweep in flight.
  · obtain ⟨hdown, he⟩ := Option.ite_none_left_eq_some.mp hs
    cases he
    obtain ⟨hflights, htasks⟩ := hstill (Bool.eq_false_iff.mpr hdown)
    refine h.recover htasks fun r list hl => ?_
    rw [hflights] at hl
    exact absurd hl (by simp)

theorem comesIn_up {r : ℕ} {flight : Flight} (hs : comesIn st r flight = some st') :
    st.up = true ∧ st'.up = true := by
  obtain ⟨hup, -, rfl⟩ := comesIn_eq_some hs
  exact ⟨hup, hup⟩

theorem forget_up {r : ℕ} {user : UserId} {by' : By} {stage : Forget}
    (hs : forget st r user by' label stage = some st') : st'.up = st.up := by
  unfold forget at hs
  split at hs
  · cases hs
    rfl
  · cases hs
    rfl
  · cases hs
    cases by' <;> rfl
  · exact absurd hs (by simp)

theorem work_up {id : ExportId} {task : Task} (hs : work st id label task = some st') :
    st'.up = st.up := by
  unfold work at hs
  split at hs
  · obtain ⟨-, he⟩ := Option.ite_none_right_eq_some.mp hs
    cases he
    unfold claim
    split <;> rfl
  · cases hs
    rfl
  · cases hs
    rfl
  · cases hs
    unfold complete
    split <;> rfl
  · cases hs
    rfl
  · exact absurd hs (by simp)

theorem sweep_up {r : ℕ} {list : List Sweeping} (hs : sweep st r label list = some st') :
    st'.up = st.up := by
  unfold sweep at hs
  split at hs
  · obtain ⟨-, he⟩ := Option.ite_none_left_eq_some.mp hs
    cases he
    rfl
  · obtain ⟨-, he⟩ := Option.ite_none_right_eq_some.mp hs
    cases he
    split <;> rfl
  · exact absurd hs (by simp)

/-- What is taken in hand by a server that is up, or by one that is down to come up again. -/
theorem step_still (hstill : Still st) (hs : step onS3 st label = some st') : Still st' := by
  -- Every step but a stop needs the server up and leaves it up.
  have hkept (hup : st.up = true) (hsame : st'.up = st.up) : Still st' := by
    intro hdown
    rw [hsame, hup] at hdown
    exact absurd hdown (by simp)
  have hcomes {st₀ : State} {r : ℕ} {flight : Flight} (hup : st₀.up = st.up)
      (hc : comesIn st₀ r flight = some st') : Still st' := by
    obtain ⟨h₀, h₁⟩ := comesIn_up hc
    exact hkept (hup ▸ h₀) (h₁.trans (h₀.symm.trans hup))
  have hflying {r : ℕ} {flight : Flight} (hflight : st.flights[r]? = some flight) :
      st.up = true := by
    by_contra hdown
    rw [(hstill (Bool.eq_false_iff.mpr hdown)).1 r] at hflight
    exact absurd hflight (by simp)
  have hworks {id : ExportId} {task : Task} (hmine : st.tasks[id]? = some task)
      (hs : work st id label task = some st') : Still st' := by
    refine hkept ?_ (work_up hs)
    by_contra hdown
    rw [(hstill (Bool.eq_false_iff.mpr hdown)).2 id] at hmine
    exact absurd hmine (by simp)
  unfold step at hs
  split at hs
  · exact hcomes rfl (Option.ite_none_left_eq_some.mp hs).2
  · next r user => exact @hcomes { st with removed := user :: st.removed } _ _ rfl hs
  · obtain ⟨hup, he⟩ := Option.ite_none_right_eq_some.mp hs
    cases he
    exact hkept hup rfl
  · split at hs
    · next hflight =>
      cases hs
      exact hkept (hflying hflight) rfl
    · exact absurd hs (by simp)
  · obtain ⟨hasked, he⟩ := Option.ite_none_right_eq_some.mp hs
    cases he
    obtain ⟨flight, hflight, -⟩ := (Option.any_eq_true _ _).mp hasked
    exact hkept (hflying hflight) rfl
  · split at hs
    · next hflight =>
      obtain ⟨-, he⟩ := Option.ite_none_right_eq_some.mp hs
      cases he
      exact hkept (hflying hflight) rfl
    · exact absurd hs (by simp)
  · split at hs
    · next hflight => exact hkept (hflying hflight) (forget_up hs)
    · exact absurd hs (by simp)
  · split at hs
    · next hflight => exact hkept (hflying hflight) (forget_up hs)
    · exact absurd hs (by simp)
  · split at hs
    · next hflight => exact hkept (hflying hflight) (forget_up hs)
    · exact absurd hs (by simp)
  · split at hs
    · next hflight =>
      cases hs
      exact hkept (hflying hflight) rfl
    · exact absurd hs (by simp)
  · split at hs
    · next hflight =>
      cases hs
      exact hkept (hflying hflight) rfl
    · exact absurd hs (by simp)
  iterate 5
    · split at hs
      · next hmine => exact hworks hmine hs
      · exact absurd hs (by simp)
  · split at hs
    · exact absurd hs (by simp)
    · exact hcomes rfl hs
  · split at hs
    · next hflight => exact hkept (hflying hflight) (sweep_up hs)
    · exact absurd hs (by simp)
  · split at hs
    · next hflight => exact hkept (hflying hflight) (sweep_up hs)
    · exact absurd hs (by simp)
  -- `.stops`
  · obtain ⟨-, he⟩ := Option.ite_none_right_eq_some.mp hs
    cases he
    exact fun _ => ⟨fun r => by simp, fun id => by simp⟩
  -- `.recovers`
  · obtain ⟨-, he⟩ := Option.ite_none_left_eq_some.mp hs
    cases he
    intro hdown
    exact absurd hdown (by simp [recover])

/-- A server with nobody's export, and some of its members removed. -/
def noExports (removed : List UserId) : State := ⟨[], [], removed, ∅, ∅, 0, true⟩

theorem noExports_kept (removed : List UserId) : Kept (noExports removed) := by
  constructor <;> simp [noExports]

/-- The server is up, no request and no sweep is in flight, and no worker has anything left to
do. -/
def State.quiet (st : State) : Bool := st.up && st.flights.isEmpty && st.tasks.isEmpty

/-- Every archive in the store is some row's, every job is over, a member has at most one, and a
removed member none. -/
structure Tidy (st : State) : Prop where
  stored : ∀ key ∈ st.store, ∃ row ∈ st.rows, row.objectKey = some key
  ended : ∀ row ∈ st.rows, row.state ≠ .queued ∧ row.state ≠ .running
  single : ∀ user, (st.rows.filter fun row => row.userId = user).length ≤ 1
  gone : ∀ row ∈ st.rows, row.userId ∉ st.removed

theorem Kept.tidy (h : Kept st) (hq : st.quiet = true) : Tidy st := by
  simp only [State.quiet, Bool.and_eq_true, Std.ExtTreeMap.isEmpty_iff] at hq
  obtain ⟨⟨hup, hflights⟩, htasks⟩ := hq
  refine ⟨fun key hkey => ?_, fun row hrow => ?_, h.single, fun row hrow hremoved => ?_⟩
  · rcases h.stored key hkey with hrow | ht
    · exact hrow
    · exact absurd ht (by simp [htasks])
  · cases hover : row.state.over with
    | true => constructor <;> intro hs <;> simp [hs, JobState.over] at hover
    | false => exact absurd (h.worked hup row hrow hover) (by simp [htasks])
  · obtain ⟨r, flight, hflight, -⟩ := forgetting_iff.mp (h.gone row hrow hremoved)
    exact absurd hflight (by simp [hflights])

/-- In every run whose steps all meet the condition, once nothing is in flight the archives are
tidy. -/
theorem archives_tidy {removed : List UserId} {ls : List Label}
    (hc : (machine onS3 (noExports removed)).Meets Careful ls)
    (hr : (machine onS3 (noExports removed)).run ls = some st) (hq : st.quiet = true) :
    Tidy st := by
  have hinv : Kept st ∧ Still st :=
    (machine onS3 (noExports removed)).invariant_of_meets (I := fun st => Kept st ∧ Still st)
      ⟨noExports_kept removed, fun hdown => absurd hdown (by simp [machine, noExports])⟩
      (fun s l t hs hok hl => ⟨step_kept hs.1 hs.2 hok hl, step_still hs.2 hl⟩) hc hr
  exact hinv.1.tidy hq

end Runs

section Overlap

/-- A member asks for an archive, and its worker starts on it. -/
def asksAndBuilds : List Label :=
  [.asks 0 5, .hasRoom 0 [1000] none, .readsKeys 0, .deletesRows 0, .inserts 0, .claims 0]

/-- The archive is stored, and the member removed after: the archive is forgotten. -/
def removedAfter : List Label :=
  asksAndBuilds ++
    [.stores 0, .completes 0 1000 50, .removes 1 5, .readsKeys 1, .deletesObject 1, .deletesRows 1]

theorem archives_tidy_removed :
    ∃ st, (machine false (noExports [])).run removedAfter = some st ∧ Tidy st := by
  have hrun : ((machine false (noExports [])).run removedAfter).map State.quiet = some true := by
    decide +kernel
  obtain ⟨st, hst, hq⟩ := Option.map_eq_some_iff.mp hrun
  exact ⟨st, hst, archives_tidy (by decide +kernel) hst hq⟩

/-- The member is removed while the archive is built: it is stored, and said to be complete, after
the forgetting deleted the object it knew of and before it deletes the row. -/
def storedBetween : List Label :=
  asksAndBuilds ++
    [.removes 1 5, .readsKeys 1, .deletesObject 1, .stores 0, .completes 0 1000 50, .deletesRows 1]

theorem archive_outlives_row :
    ¬∀ onS3 removed ls st, (machine onS3 (noExports removed)).run ls = some st →
    st.quiet = true → Tidy st := by
  intro h
  have hrun : ((machine false (noExports [])).run storedBetween).map
      (fun st => (st.quiet, st.store, st.rows)) = some (true, [⟨0⟩], []) := by decide +kernel
  obtain ⟨st, hst, hends⟩ := Option.map_eq_some_iff.mp hrun
  obtain ⟨hq, hends⟩ := Prod.mk.inj hends
  obtain ⟨hstore, hrows⟩ := Prod.mk.inj hends
  obtain ⟨row, hrow, -⟩ := (h false [] storedBetween st hst hq).stored ⟨0⟩ (by simp [hstore])
  rw [hrows] at hrow
  exact absurd hrow List.not_mem_nil

end Overlap
end Linger.Exports
