import Linger.DmStore
import Linger.ScreenSocket

/-! Voice seats and the DMs they are in: a join is checked when its frame arrives, and
its seat taken then or when its turn comes, while its person may be leaving the DM. -/
namespace Linger.VoiceSeats
open FiniteMap StepMachine Seats

/-- A seat a session asked for. -/
structure WantedSeat where
  roomId : RoomId
  canForward : Bool
  deriving DecidableEq, Repr

/-- A session's newest request, held back until its turn. -/
structure HeldVoice where
  wanted : Option WantedSeat
  lastRoom : Option RoomId
  churned : Bool
  deriving DecidableEq, Repr

/-- A newer request arrived: it's the one the turn takes. -/
def HeldVoice.newest (held : HeldVoice) (wanted : Option WantedSeat) : HeldVoice :=
  let room := wanted.map WantedSeat.roomId
  { wanted := wanted, lastRoom := room
    churned := held.churned || room.isNone || room != held.lastRoom }

def HeldVoice.new (seated : Option RoomId) (wanted : Option WantedSeat) : HeldVoice :=
  HeldVoice.newest ⟨none, seated, false⟩ wanted

/-- Where something that moves seats stands: a voice frame, a held turn, a session's
end, somebody leaving a DM, or a host taking somebody out. -/
inductive Task
  | sees (session : SessionId) (userId : UserId) (wanted : WantedSeat)
  | changes (session : SessionId) (userId : UserId) (wanted : Option WantedSeat)
  | waits (session : SessionId) (userId : UserId)
  | takes (session : SessionId) (userId : UserId) (wanted : Option WantedSeat) (churned : Bool)
  | joins (session : SessionId) (userId : UserId) (roomId : RoomId)
  | seats (session : SessionId) (userId : UserId) (roomId : RoomId)
  | forgets (session : SessionId)
  | parts (session : SessionId)
  | leaves (roomId : RoomId) (userId : UserId)
  | leftDm (roomId : RoomId) (userId : UserId)
  | takesOut (roomId : RoomId) (userId : UserId) (leaving : Bool)
  | takingOut (roomId : RoomId) (userId : UserId) (sessions : List SessionId) (leaving : Bool)
  deriving DecidableEq, Repr

/-- `rooms` are the rooms that are no DMs, and `left` who has finished leaving which DM. -/
structure Server where
  db : DmStore
  rooms : Finset RoomId
  sessions : FMap SessionId UserId
  voice : FMap SessionId VoiceSeat
  held : FMap SessionId HeldVoice
  tasks : FMap ℕ Task
  left : Finset (RoomId × UserId)

namespace Server

/-- Whether a person may see a room: any that is no DM, and a DM they are in. -/
def visibleTo (st : Server) (roomId : RoomId) (userId : UserId) : Bool :=
  decide (roomId ∈ st.rooms) || st.db.visibleTo roomId userId

def seatRoom (st : Server) (session : SessionId) : Option RoomId :=
  (st.voice[session]?).map VoiceSeat.roomId

def voicePeers (st : Server) (roomId : RoomId) : ℕ :=
  ((vals st.voice).filter fun seat => seat.roomId = roomId).length

/-- Every seat a person has in a room's voice. -/
def seatsOf (st : Server) (roomId : RoomId) (userId : UserId) : List SessionId :=
  (st.voice.toList.filter fun e => e.2.userId = userId ∧ e.2.roomId = roomId).map Prod.fst

def goOn (st : Server) (i : ℕ) (task : Task) : Server :=
  { st with tasks := st.tasks.insert i task }

def ends (st : Server) (i : ℕ) : Server := { st with tasks := st.tasks.erase i }

end Server

inductive Act
  | connect (session : SessionId) (userId : UserId)
  | createDm (roomId : RoomId) (people : List UserId)
  | voiceJoin (i : ℕ) (session : SessionId) (wanted : WantedSeat)
  | voiceLeave (i : ℕ) (session : SessionId)
  | goodbye (i : ℕ) (session : SessionId)
  | gone (i : ℕ) (session : SessionId)
  | leaveDm (i : ℕ) (roomId : RoomId) (userId : UserId)
  | hostTakesOut (i : ℕ) (roomId : RoomId) (userId : UserId)
  | step (i : ℕ) (limited : Bool)
  deriving DecidableEq, Repr

/-- `change_voice`: a turn that is coming takes this request instead; else it waits for
one, past the limit, or is taken at once. -/
def changeVoice (st : Server) (i : ℕ) (limited : Bool) (session : SessionId) (userId : UserId)
    (wanted : Option WantedSeat) : Server :=
  match st.held[session]? with
  | some held => ({ st with held := st.held.insert session (held.newest wanted) }).ends i
  | none =>
    if limited then
      ({ st with held := st.held.insert session (HeldVoice.new (st.seatRoom session) wanted) }).goOn
        i (.waits session userId)
    else st.goOn i (.takes session userId wanted false)

/-- A held turn that has come. -/
def takeTurn (st : Server) (i : ℕ) (session : SessionId) (userId : UserId) : Server :=
  match st.sessions[session]? with
  | none => ({ st with held := st.held.erase session }).ends i
  | some _ =>
    match st.held[session]? with
    | none => st.ends i
    | some held =>
      ({ st with held := st.held.erase session }).goOn i
        (.takes session userId held.wanted held.churned)

/-- `take_seat`, up to where a join has found that there is room for it. -/
def takeSeat (st : Server) (i : ℕ) (session : SessionId) (userId : UserId)
    (wanted : Option WantedSeat) : Server :=
  match wanted with
  | none => st.goOn i (.parts session)
  | some seat =>
    if !seat.canForward then st.ends i
    else if st.seatRoom session = some seat.roomId then st.ends i
    else if st.voicePeers seat.roomId ≥ maxVoicePeers then st.ends i
    else st.goOn i (.joins session userId seat.roomId)

/-- What a task does before it next lets anybody else go first. -/
def advance (st : Server) (i : ℕ) (limited : Bool) : Task → Option Server
  | .sees session userId wanted =>
    some (if st.visibleTo wanted.roomId userId then
      st.goOn i (.changes session userId (some wanted))
      else st.ends i)
  | .changes session userId wanted => some (changeVoice st i limited session userId wanted)
  | .waits session userId => some (if limited then st else takeTurn st i session userId)
  | .takes session userId wanted _ => some (takeSeat st i session userId wanted)
  | .joins session userId roomId =>
    some (({ st with voice := st.voice.erase session }).goOn i (.seats session userId roomId))
  | .seats session userId roomId =>
    some (({ st with voice := st.voice.insert session ⟨roomId, userId⟩ }).ends i)
  | .forgets session =>
    some (({ st with held := st.held.erase session }).goOn i (.parts session))
  | .parts session => some (({ st with voice := st.voice.erase session }).ends i)
  | .leaves roomId userId =>
    some (match st.db.leave roomId userId with
      | none => st.ends i
      | some (db, _) => ({ st with db := db }).goOn i (.leftDm roomId userId))
  | .leftDm roomId userId => some (st.goOn i (.takesOut roomId userId true))
  | .takesOut roomId userId leaving =>
    some (st.goOn i (.takingOut roomId userId (st.seatsOf roomId userId) leaving))
  | .takingOut roomId userId (session :: sessions) leaving =>
    some (({ st with voice := st.voice.erase session }).goOn i
      (.takingOut roomId userId sessions leaving))
  | .takingOut roomId userId [] leaving =>
    some ((if leaving then { st with left := insert (roomId, userId) st.left } else st).ends i)

/-- One more task, under a number no other has. -/
def begin (st : Server) (i : ℕ) (task : Task) : Option Server :=
  if (st.tasks[i]?).isSome then none else some (st.goOn i task)

def step (st : Server) : Act → Option Server
  | .connect session userId =>
    if (st.sessions[session]?).isSome then none
    else some { st with sessions := st.sessions.insert session userId }
  | .createDm roomId people =>
    if roomId ∈ st.rooms ∨ (st.db.dms[roomId]?).isSome then none
    else (st.db.insertDm roomId people).map fun db => { st with db := db }
  | .voiceJoin i session wanted =>
    (st.sessions[session]?).bind fun userId => begin st i (.sees session userId wanted)
  | .voiceLeave i session =>
    (st.sessions[session]?).bind fun userId => begin st i (.changes session userId none)
  | .goodbye i session => begin st i (.forgets session)
  | .gone i session =>
    begin { st with sessions := st.sessions.erase session } i (.forgets session)
  | .leaveDm i roomId userId => begin st i (.leaves roomId userId)
  | .hostTakesOut i roomId userId => begin st i (.takesOut roomId userId false)
  | .step i limited => (st.tasks[i]?).bind fun task => advance st i limited task

def machine (rooms : Finset RoomId) (deactivated : Finset UserId) : Machine Server Act :=
  ⟨⟨⟨∅, deactivated⟩, rooms, ∅, ∅, ∅, ∅, ∅⟩, step⟩

/-- A leave that is committed and will still take a session's seat in the DM out. -/
def Task.willTakeOut (roomId : RoomId) (userId : UserId) (session : SessionId) : Task → Bool
  | .leftDm r u => r = roomId ∧ u = userId
  | .takesOut r u leaving => leaving ∧ r = roomId ∧ u = userId
  | .takingOut r u sessions leaving => leaving ∧ r = roomId ∧ u = userId ∧ session ∈ sessions
  | _ => false

def Server.TakesOut (st : Server) (roomId : RoomId) (userId : UserId) (session : SessionId) :
    Prop :=
  ∃ task ∈ vals st.tasks, task.willTakeOut roomId userId session = true

/-- A seat is taken in a room its person can see then, or one that their leave is
still to take them out of. -/
def SeatsMembers (st : Server) : Act → Prop
  | .step i _ =>
    match st.tasks[i]? with
    | some (.seats session userId roomId) =>
      st.visibleTo roomId userId = true ∨ st.TakesOut roomId userId session
    | _ => True
  | _ => True

/-- A leave that is committed. -/
def Task.isOut (roomId : RoomId) (userId : UserId) : Task → Bool
  | .leftDm r u => r = roomId ∧ u = userId
  | .takesOut r u leaving => leaving ∧ r = roomId ∧ u = userId
  | .takingOut r u _ leaving => leaving ∧ r = roomId ∧ u = userId
  | _ => false

/-- A DM that somebody is not in, and so never will be. -/
def Out (db : DmStore) (roomId : RoomId) (userId : UserId) : Prop :=
  ∃ row, db.dms[roomId]? = some row ∧ userId ∉ row.members

structure Inv (st : Server) : Prop where
  rooms : ∀ r ∈ st.rooms, st.db.dms[r]? = none
  seated : ∀ (s : SessionId) (seat : VoiceSeat), st.voice[s]? = some seat →
    st.visibleTo seat.roomId seat.userId = true ∨ st.TakesOut seat.roomId seat.userId s
  out : ∀ (i : ℕ) (task : Task) (r : RoomId) (u : UserId), st.tasks[i]? = some task →
    task.isOut r u = true → Out st.db r u
  once : ∀ (i j : ℕ) (task other : Task) (r : RoomId) (u : UserId), st.tasks[i]? = some task →
    st.tasks[j]? = some other → task.isOut r u = true → other.isOut r u = true → i = j
  gone : ∀ (r : RoomId) (u : UserId), (r, u) ∈ st.left → Out st.db r u ∧
    ∀ (i : ℕ) (task : Task), st.tasks[i]? = some task → task.isOut r u = false

section Keeps
variable {st st' : Server} {db db' : DmStore}

theorem takesOut_iff (st : Server) (r : RoomId) (u : UserId) (s : SessionId) :
    st.TakesOut r u s ↔
      ∃ (i : ℕ) (task : Task), st.tasks[i]? = some task ∧ task.willTakeOut r u s = true := by
  constructor
  · rintro ⟨task, hm, ht⟩
    obtain ⟨i, hi⟩ := (mem_vals _ _).mp hm
    exact ⟨i, task, hi, ht⟩
  · rintro ⟨i, task, hi, ht⟩
    exact ⟨task, (mem_vals _ _).mpr ⟨i, hi⟩, ht⟩

theorem isOut_of_willTakeOut {task : Task} {r : RoomId} {u : UserId} {s : SessionId}
    (h : task.willTakeOut r u s = true) : task.isOut r u = true := by
  cases task with
  | leftDm => exact h
  | takesOut => exact h
  | takingOut =>
    simp only [Task.willTakeOut, Task.isOut, decide_eq_true_eq] at h ⊢
    exact ⟨h.1, h.2.1, h.2.2.1⟩
  | sees | changes | waits | takes | joins | seats | forgets | parts | leaves => cases h

/-- Nobody sees a DM they are out of. -/
theorem not_visible_of_out (hrooms : ∀ r ∈ st.rooms, st.db.dms[r]? = none) {r : RoomId}
    {u : UserId} (h : Out st.db r u) : st.visibleTo r u = false := by
  obtain ⟨row, hrow, hu⟩ := h
  have hroom : r ∉ st.rooms := by
    intro hr
    rw [hrooms r hr] at hrow
    cases hrow
  have hdm : st.db.visibleTo r u = false := by
    rw [DmStore.visibleTo, DmStore.members, hrow]
    simpa [DmStore.activeOf] using fun hm => absurd hm hu
  simp [Server.visibleTo, hroom, hdm]

theorem Inv.congr (h : Inv st) (hdb : st'.db = st.db) (hrooms : st'.rooms = st.rooms)
    (hvoice : st'.voice = st.voice) (htasks : st'.tasks = st.tasks) (hleft : st'.left = st.left) :
    Inv st' := by
  obtain ⟨db, rooms, sessions, voice, held, tasks, left⟩ := st
  obtain ⟨db', rooms', sessions', voice', held', tasks', left'⟩ := st'
  cases hdb
  cases hrooms
  cases hvoice
  cases htasks
  cases hleft
  exact ⟨h.rooms, h.seated, h.out, h.once, h.gone⟩

/-- What becomes of one task: it is no leave that it was not, and still takes out
whoever it was to take out and has a seat. -/
theorem Inv.task (h : Inv st) {i : ℕ} {tasks : FMap ℕ Task}
    (hothers : ∀ j, j ≠ i → tasks[j]? = st.tasks[j]?)
    (hwill : ∀ (s : SessionId) (seat : VoiceSeat) (task : Task), st.voice[s]? = some seat →
      st.tasks[i]? = some task → task.willTakeOut seat.roomId seat.userId s = true →
        ∃ task', tasks[i]? = some task' ∧ task'.willTakeOut seat.roomId seat.userId s = true)
    (hout : ∀ (task' : Task) (r : RoomId) (u : UserId), tasks[i]? = some task' →
      task'.isOut r u = true → ∃ task, st.tasks[i]? = some task ∧ task.isOut r u = true) :
    Inv { st with tasks := tasks } := by
  have hback (j : ℕ) (task' : Task) (r : RoomId) (u : UserId) (hj : tasks[j]? = some task')
      (ho : task'.isOut r u = true) :
      ∃ task, st.tasks[j]? = some task ∧ task.isOut r u = true := by
    by_cases hi : j = i
    · subst hi
      exact hout task' r u hj ho
    · exact ⟨task', hothers j hi ▸ hj, ho⟩
  refine ⟨h.rooms, fun s seat hs => ?_, fun j task' r u hj ho => ?_,
    fun j k task' other' r u hj hk ho ho' => ?_, fun r u hm => ?_⟩
  · refine (h.seated s seat hs).imp id fun ht => ?_
    obtain ⟨j, task, hj, hw⟩ := (takesOut_iff _ _ _ _).mp ht
    by_cases hi : j = i
    · subst hi
      obtain ⟨task', hj', hw'⟩ := hwill s seat task hs hj hw
      exact (takesOut_iff _ _ _ _).mpr ⟨j, task', hj', hw'⟩
    · exact (takesOut_iff _ _ _ _).mpr ⟨j, task, (hothers j hi).trans hj, hw⟩
  · obtain ⟨task, hj, ho⟩ := hback j task' r u hj ho
    exact h.out j task r u hj ho
  · obtain ⟨task, hj, ho⟩ := hback j task' r u hj ho
    obtain ⟨other, hk, ho'⟩ := hback k other' r u hk ho'
    exact h.once j k task other r u hj hk ho ho'
  · obtain ⟨ho, hnone⟩ := h.gone r u hm
    refine ⟨ho, fun j task' hj => ?_⟩
    by_contra hn
    obtain ⟨task, hj, ho'⟩ := hback j task' r u hj (by simpa using hn)
    rw [hnone j task hj] at ho'
    cases ho'

theorem Inv.goOn (h : Inv st) {i : ℕ} {task task' : Task} (hi : st.tasks[i]? = some task)
    (hwill : ∀ (s : SessionId) (seat : VoiceSeat), st.voice[s]? = some seat →
      task.willTakeOut seat.roomId seat.userId s = true →
        task'.willTakeOut seat.roomId seat.userId s = true)
    (hout : ∀ r u, task'.isOut r u = true → task.isOut r u = true) : Inv (st.goOn i task') := by
  have hat (j : ℕ) := insert_at st.tasks i j task'
  refine h.task (fun j hj => (hat j).trans (if_neg hj)) (fun s seat t hs ht hw => ?_)
    fun t r u ht ho => ?_
  · rw [hi] at ht
    cases ht
    exact ⟨task', (hat i).trans (if_pos rfl), hwill s seat hs hw⟩
  · rw [hat, if_pos rfl] at ht
    cases ht
    exact ⟨task, hi, hout r u ho⟩

/-- A task ends that has nobody left to take out. -/
theorem Inv.ends (h : Inv st) {i : ℕ} {task : Task} (hi : st.tasks[i]? = some task)
    (hwill : ∀ (s : SessionId) (seat : VoiceSeat), st.voice[s]? = some seat →
      task.willTakeOut seat.roomId seat.userId s = false) : Inv (st.ends i) := by
  have hat (j : ℕ) := erase_at st.tasks i j
  refine h.task (fun j hj => (hat j).trans (if_neg hj)) (fun s seat t hs ht hw => ?_)
    fun t r u ht ho => ?_
  · rw [hi] at ht
    cases ht
    rw [hwill s seat hs] at hw
    cases hw
  · rw [hat, if_pos rfl] at ht
    cases ht

theorem Inv.begin (h : Inv st) {i : ℕ} {task : Task} (hb : begin st i task = some st')
    (hout : ∀ r u, task.isOut r u = false) : Inv st' := by
  unfold VoiceSeats.begin at hb
  split at hb
  · cases hb
  · next hi =>
    cases hb
    have hi : st.tasks[i]? = none := Option.not_isSome_iff_eq_none.mp hi
    have hat (j : ℕ) := insert_at st.tasks i j task
    refine h.task (fun j hj => (hat j).trans (if_neg hj)) (fun s seat t hs ht hw => ?_)
      fun t r u ht ho => ?_
    · rw [hi] at ht
      cases ht
    · rw [hat, if_pos rfl] at ht
      cases ht
      rw [hout r u] at ho
      cases ho

theorem Inv.unseat (h : Inv st) (s : SessionId) : Inv { st with voice := st.voice.erase s } := by
  refine ⟨h.rooms, fun t seat ht => ?_, h.out, h.once, h.gone⟩
  have ht : (st.voice.erase s)[t]? = some seat := ht
  rw [erase_at] at ht
  split at ht
  · cases ht
  · exact h.seated t seat ht

theorem Inv.seat (h : Inv st) {s : SessionId} {seat : VoiceSeat}
    (hok : st.visibleTo seat.roomId seat.userId = true ∨ st.TakesOut seat.roomId seat.userId s) :
    Inv { st with voice := st.voice.insert s seat } := by
  refine ⟨h.rooms, fun t seat' ht => ?_, h.out, h.once, h.gone⟩
  have ht : (st.voice.insert s seat)[t]? = some seat' := ht
  rw [insert_at] at ht
  split at ht
  · next he =>
    cases ht
    rw [he]
    exact hok
  · exact h.seated t seat' ht

/-- Whoever leaves is out, and nobody else's place in a DM changes. -/
theorem leave_rows {r : RoomId} {u : UserId} {told : Bool} (h : db.leave r u = some (db', told)) :
    (∃ row, db.dms[r]? = some row ∧ u ∈ row.members) ∧ Out db' r u ∧
      (∀ d : RoomId, (db'.dms[d]?).isSome = (db.dms[d]?).isSome) ∧
      (∀ d v, Out db d v → Out db' d v) ∧
      ∀ d v, db.visibleTo d v = true → (d, v) ≠ (r, u) → db'.visibleTo d v = true := by
  unfold DmStore.leave at h
  cases hd : db.dms[r]? with
  | none =>
    rw [hd] at h
    cases h
  | some row =>
    rw [hd] at h
    simp only [Option.ite_none_left_eq_some, Option.some.injEq, Prod.mk.injEq] at h
    obtain ⟨hm, -, rfl, -⟩ := h
    have hat (d : RoomId) := insert_at db.dms r d (db.rowWithout row u)
    have hkept (v : UserId) (hv : v ∉ row.members ∨ v = u) :
        v ∉ (db.rowWithout row u).members := by
      intro hin
      unfold DmStore.rowWithout at hin
      dsimp only at hin
      split at hin
      · cases hin
      · simp only [List.mem_filter, decide_eq_true_eq] at hin
        rcases hv with hv | hv
        · exact hv hin.1
        · exact hin.2 hv
    refine ⟨⟨row, rfl, not_not.mp hm⟩, ⟨_, (hat r).trans (if_pos rfl), hkept u (.inr rfl)⟩,
      fun d => ?_, fun d v ⟨row', hrow, hv⟩ => ?_, fun d v hv hne => ?_⟩
    · rw [hat]
      split
      · next he => rw [he, hd]; rfl
      · rfl
    · by_cases hdr : d = r
      · subst hdr
        rw [hd] at hrow
        cases hrow
        exact ⟨_, (hat d).trans (if_pos rfl), hkept v (.inl hv)⟩
      · exact ⟨row', (hat d).trans ((if_neg hdr).trans hrow), hv⟩
    · by_cases hdr : d = r
      · subst hdr
        have hvu : v ≠ u := fun he => hne (by rw [he])
        have hactive : v ∈ db.activeOf row := by
          rw [DmStore.visibleTo, DmStore.members, hd] at hv
          exact List.contains_iff_mem.mp hv
        obtain ⟨hin, hlive⟩ := List.mem_filter.mp hactive
        have hin' : v ∈ db.activeOf
            { row with memberKey := none, members := row.members.filter (· ≠ u) } :=
          List.mem_filter.mpr ⟨List.mem_filter.mpr ⟨hin, by simpa using hvu⟩, hlive⟩
        have hrow : v ∈ db.activeOf (db.rowWithout row u) := by
          unfold DmStore.rowWithout
          dsimp only
          rw [if_neg fun he => by rw [he] at hin'; cases hin']
          exact hin'
        rw [DmStore.visibleTo, DmStore.members, hat, if_pos rfl]
        exact List.contains_iff_mem.mpr hrow
      · rw [DmStore.visibleTo, DmStore.members, hat, if_neg hdr]
        exact hv

theorem inv_createDm (h : Inv st) (r : RoomId) (people : List UserId)
    (hstep : step st (.createDm r people) = some st') : Inv st' := by
  simp only [step] at hstep
  split at hstep
  · cases hstep
  next hfree =>
  obtain ⟨hroom, hnone⟩ := not_or.mp hfree
  have hnone : st.db.dms[r]? = none := Option.not_isSome_iff_eq_none.mp hnone
  obtain ⟨db, hdb, rfl⟩ := Option.map_eq_some_iff.mp hstep
  simp only [DmStore.insertDm, Option.ite_none_left_eq_some, Option.some.injEq] at hdb
  obtain ⟨-, rfl⟩ := hdb
  have hat (d : RoomId) := insert_at st.db.dms r d ⟨some (DmStore.memberKey people), people, people⟩
  have hout {d : RoomId} {u : UserId} (ho : Out st.db d u) : Out { st.db with
      dms := st.db.dms.insert r ⟨some (DmStore.memberKey people), people, people⟩ } d u := by
    obtain ⟨row, hrow, hu⟩ := ho
    have hne : d ≠ r := by
      rintro rfl
      rw [hnone] at hrow
      cases hrow
    exact ⟨row, (hat d).trans ((if_neg hne).trans hrow), hu⟩
  refine ⟨fun d hd => ?_, fun s seat hs => ?_,
    fun i task d u hi ho => hout (h.out i task d u hi ho),
    h.once, fun d u hm => ⟨hout (h.gone d u hm).1, (h.gone d u hm).2⟩⟩
  · have hne : d ≠ r := by
      rintro rfl
      exact hroom hd
    exact (hat d).trans ((if_neg hne).trans (h.rooms d hd))
  · refine (h.seated s seat hs).imp (fun hv => ?_) id
    simp only [Server.visibleTo, Bool.or_eq_true] at hv ⊢
    refine hv.imp id fun hdm => ?_
    by_cases hd : seat.roomId = r
    · rw [DmStore.visibleTo, DmStore.members, hd, hnone] at hdm
      cases hdm
    · rw [DmStore.visibleTo, DmStore.members, hat, if_neg hd]
      exact hdm

/-- A leave that commits is the only one of that person from that DM, and takes their
seats there out from then on. -/
theorem inv_leaves (h : Inv st) {i : ℕ} {r : RoomId} {u : UserId} {told : Bool}
    (hi : st.tasks[i]? = some (.leaves r u)) (hdb : st.db.leave r u = some (db', told)) :
    Inv (({ st with db := db' }).goOn i (.leftDm r u)) := by
  obtain ⟨⟨row, hrow, hu⟩, hleft, hkeys, houts, hvisible⟩ := leave_rows hdb
  have hat (j : ℕ) := insert_at st.tasks i j (.leftDm r u)
  have hnot : ¬Out st.db r u := by
    rintro ⟨row', hrow', hu'⟩
    rw [hrow] at hrow'
    cases hrow'
    exact hu' hu
  have hself {j : ℕ} {task : Task} {d : RoomId} {v : UserId}
      (hj : (st.tasks.insert i (.leftDm r u))[j]? = some task) (ho : task.isOut d v = true) :
      (j = i ∧ d = r ∧ v = u) ∨ (j ≠ i ∧ st.tasks[j]? = some task ∧ (d, v) ≠ (r, u)) := by
    rw [hat] at hj
    split at hj
    · next he =>
      cases hj
      simp only [Task.isOut, decide_eq_true_eq] at ho
      exact .inl ⟨he, ho.1.symm, ho.2.symm⟩
    · next hne =>
      refine .inr ⟨hne, hj, fun he => hnot ?_⟩
      cases he
      exact h.out j task r u hj ho
  refine ⟨fun d hd => ?_, fun s seat hs => ?_, fun j task d v hj ho => ?_,
    fun j k task other d v hj hk ho ho' => ?_, fun d v hm => ?_⟩
  · have := hkeys d
    rw [h.rooms d hd] at this
    exact Option.isSome_eq_false_iff.mp this |> Option.isNone_iff_eq_none.mp
  · by_cases he : (seat.roomId, seat.userId) = (r, u)
    · obtain ⟨hr, hv⟩ := Prod.mk.inj he
      refine .inr ((takesOut_iff _ _ _ _).mpr ⟨i, .leftDm r u, (hat i).trans (if_pos rfl), ?_⟩)
      simp [Task.willTakeOut, hr, hv]
    · rcases h.seated s seat hs with hv | ht
      · refine .inl ?_
        simp only [Server.visibleTo, Bool.or_eq_true] at hv ⊢
        exact hv.imp id fun hdm => hvisible _ _ hdm he
      · obtain ⟨j, task, hj, hw⟩ := (takesOut_iff _ _ _ _).mp ht
        have hne : j ≠ i := by
          rintro rfl
          rw [hi] at hj
          cases hj
          cases hw
        exact .inr ((takesOut_iff _ _ _ _).mpr ⟨j, task, (hat j).trans ((if_neg hne).trans hj), hw⟩)
  · rcases hself hj ho with ⟨-, rfl, rfl⟩ | ⟨-, hj, -⟩
    · exact hleft
    · exact houts d v (h.out j task d v hj ho)
  · rcases hself hj ho with ⟨rfl, hd, hv⟩ | ⟨-, hj, hne⟩
    · rcases hself hk ho' with ⟨rfl, -, -⟩ | ⟨-, -, hne⟩
      · rfl
      · exact absurd (Prod.ext hd hv) hne
    · rcases hself hk ho' with ⟨-, hd, hv⟩ | ⟨-, hk, -⟩
      · exact absurd (Prod.ext hd hv) hne
      · exact h.once j k task other d v hj hk ho ho'
  · obtain ⟨ho, hnone⟩ := h.gone d v hm
    refine ⟨houts d v ho, fun j task hj => ?_⟩
    by_contra hn
    rcases hself hj (by simpa using hn) with ⟨-, rfl, rfl⟩ | ⟨-, hj, -⟩
    · exact hnot ho
    · exact hn (hnone j task hj)

/-- A leave that has taken everybody out is over. -/
theorem inv_left (h : Inv st) {i : ℕ} {r : RoomId} {u : UserId}
    (hi : st.tasks[i]? = some (.takingOut r u [] true)) :
    Inv (({ st with left := insert (r, u) st.left }).ends i) := by
  have hself : (Task.takingOut r u [] true).isOut r u = true := by simp [Task.isOut]
  have hnobody : ∀ (s : SessionId) (seat : VoiceSeat), st.voice[s]? = some seat →
      (Task.takingOut r u [] true).willTakeOut seat.roomId seat.userId s = false :=
        fun s seat _ => by
    simp [Task.willTakeOut]
  have hends := h.ends hi hnobody
  refine ⟨hends.rooms, hends.seated, hends.out, hends.once, fun d v hm => ?_⟩
  rcases Finset.mem_insert.mp hm with he | hm
  · cases he
    refine ⟨h.out i _ r u hi hself, fun j task hj => ?_⟩
    by_contra hn
    have hj : (st.tasks.erase i)[j]? = some task := hj
    rw [erase_at] at hj
    split at hj
    · cases hj
    · next hne => exact hne (h.once j i task _ r u hj hi (by simpa using hn) hself)
  · exact hends.gone d v hm

theorem mem_seatsOf (st : Server) (r : RoomId) (u : UserId) (s : SessionId) :
    s ∈ st.seatsOf r u ↔ ∃ seat, st.voice[s]? = some seat ∧ seat.userId = u ∧ seat.roomId = r := by
  simp [Server.seatsOf, mem_keys]

theorem inv_advance (h : Inv st) {i : ℕ} {limited : Bool} {task : Task}
    (hi : st.tasks[i]? = some task) (hok : SeatsMembers st (.step i limited))
    (hstep : advance st i limited task = some st') : Inv st' := by
  -- a task that is no leave can be followed by any other, or by none
  have hgo {st₁ : Server} (task' : Task) (h₁ : Inv st₁) (hi : st₁.tasks[i]? = some task)
      (hnot : ∀ r u s, task.willTakeOut r u s = false) (hout : ∀ r u, task'.isOut r u = false) :
      Inv (st₁.goOn i task') := by
    refine h₁.goOn hi (fun s seat _ hw => ?_) fun r u ho => ?_
    · rw [hnot] at hw
      cases hw
    · rw [hout] at ho
      cases ho
  have hend {st₁ : Server} (h₁ : Inv st₁) (hi : st₁.tasks[i]? = some task)
      (hnot : ∀ r u s, task.willTakeOut r u s = false) : Inv (st₁.ends i) :=
    h₁.ends hi fun s seat _ => hnot _ _ _
  cases task with
  | sees session userId wanted =>
    cases hstep
    split
    · exact hgo _ h hi (fun _ _ _ => rfl) fun _ _ => rfl
    · exact hend h hi fun _ _ _ => rfl
  | changes session userId wanted =>
    cases hstep
    unfold changeVoice
    split
    · refine hend ?_ ?_ fun _ _ _ => rfl
      · exact h.congr rfl rfl rfl rfl rfl
      · exact hi
    · split
      · refine hgo _ ?_ ?_ (fun _ _ _ => rfl) fun _ _ => rfl
        · exact h.congr rfl rfl rfl rfl rfl
        · exact hi
      · exact hgo _ h hi (fun _ _ _ => rfl) fun _ _ => rfl
  | waits session userId =>
    cases hstep
    split
    · exact h
    · unfold takeTurn
      split
      · refine hend ?_ ?_ fun _ _ _ => rfl
        · exact h.congr rfl rfl rfl rfl rfl
        · exact hi
      · split
        · exact hend h hi fun _ _ _ => rfl
        · refine hgo _ ?_ ?_ (fun _ _ _ => rfl) fun _ _ => rfl
          · exact h.congr rfl rfl rfl rfl rfl
          · exact hi
  | takes session userId wanted churned =>
    cases hstep
    unfold takeSeat
    split
    · exact hgo _ h hi (fun _ _ _ => rfl) fun _ _ => rfl
    · split
      · exact hend h hi fun _ _ _ => rfl
      split
      · exact hend h hi fun _ _ _ => rfl
      split
      · exact hend h hi fun _ _ _ => rfl
      · exact hgo _ h hi (fun _ _ _ => rfl) fun _ _ => rfl
  | joins session userId roomId =>
    cases hstep
    exact hgo _ (h.unseat session) hi (fun _ _ _ => rfl) fun _ _ => rfl
  | seats session userId roomId =>
    cases hstep
    simp only [SeatsMembers, hi] at hok
    have hseated : Inv { st with voice := st.voice.insert session ⟨roomId, userId⟩ } := h.seat hok
    exact hend hseated hi fun _ _ _ => rfl
  | forgets session =>
    cases hstep
    refine hgo _ ?_ ?_ (fun _ _ _ => rfl) fun _ _ => rfl
    · exact h.congr rfl rfl rfl rfl rfl
    · exact hi
  | parts session =>
    cases hstep
    exact hend (h.unseat session) hi fun _ _ _ => rfl
  | leaves r u =>
    cases hstep
    split
    · exact hend h hi fun _ _ _ => rfl
    · next hdb => exact inv_leaves h hi hdb
  | leftDm r u =>
    cases hstep
    refine h.goOn hi (fun s seat _ hw => ?_) fun r' u' ho => ?_
    · simpa [Task.willTakeOut] using hw
    · simpa [Task.isOut] using ho
  | takesOut r u leaving =>
    cases hstep
    refine h.goOn hi (fun s seat hs hw => ?_) fun r' u' ho => ?_
    · simp only [Task.willTakeOut, decide_eq_true_eq] at hw ⊢
      obtain ⟨hl, hr, hu⟩ := hw
      exact ⟨hl, hr, hu, (mem_seatsOf st r u s).mpr ⟨seat, hs, hu.symm, hr.symm⟩⟩
    · simpa [Task.isOut] using ho
  | takingOut r u sessions leaving =>
    cases sessions with
    | nil =>
      cases hstep
      cases leaving with
      | true => exact inv_left h hi
      | false => exact hend h hi fun _ _ _ => by simp [Task.willTakeOut]
    | cons session sessions =>
      cases hstep
      refine (h.unseat session).goOn hi (fun s seat hs hw => ?_) fun r' u' ho => ?_
      · have hne : s ≠ session := by
          rintro rfl
          have hs : (st.voice.erase s)[s]? = some seat := hs
          rw [erase_at, if_pos rfl] at hs
          cases hs
        simp only [Task.willTakeOut, decide_eq_true_eq, List.mem_cons] at hw ⊢
        exact ⟨hw.1, hw.2.1, hw.2.2.1, hw.2.2.2.resolve_left hne⟩
      · simpa [Task.isOut] using ho

theorem inv_step (h : Inv st) {a : Act} (hok : SeatsMembers st a) (hstep : step st a = some st') :
    Inv st' := by
  cases a with
  | connect session userId =>
    simp only [step] at hstep
    split at hstep
    · cases hstep
    · cases hstep
      exact h.congr rfl rfl rfl rfl rfl
  | createDm r people => exact inv_createDm h r people hstep
  | voiceJoin i session wanted =>
    obtain ⟨userId, -, hb⟩ := Option.bind_eq_some_iff.mp hstep
    exact h.begin hb fun _ _ => rfl
  | voiceLeave i session =>
    obtain ⟨userId, -, hb⟩ := Option.bind_eq_some_iff.mp hstep
    exact h.begin hb fun _ _ => rfl
  | goodbye i session => exact h.begin hstep fun _ _ => rfl
  | gone i session =>
    have h₁ : Inv { st with sessions := st.sessions.erase session } := h.congr rfl rfl rfl rfl rfl
    exact h₁.begin hstep fun _ _ => rfl
  | leaveDm i r u => exact h.begin hstep fun _ _ => rfl
  | hostTakesOut i r u => exact h.begin hstep fun _ _ => by simp [Task.isOut]
  | step i limited =>
    obtain ⟨task, hi, hstep⟩ := Option.bind_eq_some_iff.mp hstep
    exact inv_advance h hi hok hstep

theorem inv_start (rooms : Finset RoomId) (deactivated : Finset UserId) :
    Inv (machine rooms deactivated).start := by
  refine ⟨fun r _ => ?_, fun s seat hs => ?_, fun i task r u hi => ?_,
    fun i j task other r u hi => ?_, fun r u hm => ?_⟩
  · exact Std.ExtTreeMap.getElem?_empty
  · cases Std.ExtTreeMap.getElem?_empty.symm.trans hs
  · cases Std.ExtTreeMap.getElem?_empty.symm.trans hi
  · cases Std.ExtTreeMap.getElem?_empty.symm.trans hi
  · cases hm

/-- Whoever has finished leaving a DM has no seat in its voice. -/
theorem Inv.no_seat (h : Inv st) {r : RoomId} {u : UserId} (hm : (r, u) ∈ st.left)
    {s : SessionId} {seat : VoiceSeat} (hs : st.voice[s]? = some seat) (hr : seat.roomId = r)
    (hu : seat.userId = u) : False := by
  subst hr
  subst hu
  obtain ⟨hout, hnone⟩ := h.gone _ _ hm
  rcases h.seated s seat hs with hv | ht
  · rw [not_visible_of_out h.rooms hout] at hv
    cases hv
  · obtain ⟨i, task, hi, hw⟩ := (takesOut_iff _ _ _ _).mp ht
    have hn := hnone i task hi
    rw [isOut_of_willTakeOut hw] at hn
    cases hn

end Keeps

/-- Once a leave has finished, in every run that seats nobody in a DM they are out
of by then, no session of its person holds a seat in that DM's voice. -/
theorem no_seat_after_leave (rooms : Finset RoomId) (deactivated : Finset UserId)
    {acts : List Act} {st : Server} (hmeets : (machine rooms deactivated).Meets SeatsMembers acts)
    (hrun : (machine rooms deactivated).run acts = some st) (r : RoomId) (u : UserId)
    (hleft : (r, u) ∈ st.left) (s : SessionId) (seat : VoiceSeat)
    (hs : st.voice[s]? = some seat) : ¬(seat.roomId = r ∧ seat.userId = u) := by
  have h := (machine rooms deactivated).invariant_of_meets (inv_start rooms deactivated)
    (fun _ _ _ h hok hl => inv_step h hok hl) hmeets hrun
  rintro ⟨hr, hu⟩
  exact h.no_seat hleft hs hr hu

instance decidableTakesOut (st : Server) (r : RoomId) (u : UserId) (s : SessionId) :
    Decidable (st.TakesOut r u s) := by
  unfold Server.TakesOut
  infer_instance

instance decidableSeatsMembers (st : Server) (a : Act) : Decidable (SeatsMembers st a) := by
  cases a <;> unfold SeatsMembers <;> dsimp only <;> (try split) <;> infer_instance

/-- A group DM, and one of its people asking for a seat in its voice, past the limit or not. -/
def asksForSeat (limited : Bool) : List Act :=
  [.createDm 7 [1, 2, 3], .connect 10 1, .voiceJoin 0 10 ⟨7, true⟩, .step 0 false, .step 0 limited]

/-- They leave the DM, and their leave takes out whoever has a seat by then. -/
def leavesDm : List Act :=
  [.leaveDm 1 7 1, .step 1 false, .step 1 false, .step 1 false]

/-- The seat is taken before the leave lists it: it goes. -/
theorem no_seat_after_leave_seatedFirst :
    ∃ st, (machine ∅ ∅).run (asksForSeat false ++ [.step 0 false, .step 0 false, .step 0 false] ++
        leavesDm ++ [.step 1 false, .step 1 false]) = some st ∧ (7, 1) ∈ st.left ∧
      ∀ (s : SessionId) (seat : VoiceSeat), st.voice[s]? = some seat →
        ¬(seat.roomId = 7 ∧ seat.userId = 1) := by
  have hok : (machine ∅ ∅).Meets SeatsMembers (asksForSeat false ++
      [.step 0 false, .step 0 false, .step 0 false] ++ leavesDm ++
      [.step 1 false, .step 1 false]) := by decide
  have hruns : ∃ st, (machine ∅ ∅).run (asksForSeat false ++
      [.step 0 false, .step 0 false, .step 0 false] ++ leavesDm ++
      [.step 1 false, .step 1 false]) = some st ∧ (7, 1) ∈ st.left := ⟨_, rfl, by decide⟩
  obtain ⟨st, hr, hm⟩ := hruns
  exact ⟨st, hr, hm, no_seat_after_leave ∅ ∅ hok hr 7 1 hm⟩

/-- The turn of a held join comes after they have left: it seats them in the DM. -/
theorem heldJoin_seats_stranger :
    ∃ st, (machine ∅ ∅).run (asksForSeat true ++ leavesDm ++ [.step 1 false] ++
        [.step 0 false, .step 0 false, .step 0 false, .step 0 false]) = some st ∧
      (7, 1) ∈ st.left ∧ st.db.visibleTo 7 1 = false ∧ st.voice[10]? = some ⟨7, 1⟩ :=
  ⟨_, rfl, by decide, by decide, rfl⟩

end Linger.VoiceSeats
