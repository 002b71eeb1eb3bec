import Linger.PutIn
import Linger.UploadsKept
import Linger.UploadsSettle

/-! The pool: what the rows count for, and when a run leaves it at most full. A slot is counted when
it is reserved, by the size it was declared with, and again when the cleaned file is written over
it. -/
namespace Linger.Uploads
open FiniteMap StepMachine TaskPool

/-- What a row counts for in the pool. -/
def Attachment.pooled (a : Attachment) : ℕ :=
  if a.state == .pending || a.state == .complete then a.sizeBytes else 0

/-- What a row counts for in what this person has going up. -/
def Attachment.upFor (userId : ℕ) (a : Attachment) : ℕ :=
  if a.uploaderId == userId && a.state == .pending then a.sizeBytes else 0

/-- The pool is at most full, and nobody has more going up than one person may. -/
structure Fits (config : Config) (st : Server) : Prop where
  pool : st.store.poolUsed ≤ config.poolBytes
  goingUp : ∀ userId, st.store.goingUp userId ≤ MAX_GOING_UP_BYTES

/-- A cleaned file that is written over its slot fits: what it has grown by, over what the slot
still counts for, is left in the pool. -/
def Room (config : Config) (st : Server) : Event → Prop
  | .step i _ answer =>
    match st.tasks[i]? with
    | some (.writesComplete id file) => answer = .refused ∨
      ∀ a ∈ st.store.attachments[id]?,
        st.store.poolUsed + file.sizeBytes ≤ config.poolBytes + a.pooled
    | _ => True
  | _ => True

section Weights
variable {store store' : Store} {id : ℕ}

theorem poolUsed_eq (store : Store) : store.poolUsed = total Attachment.pooled store.attachments :=
  total_filter _ _ _

theorem goingUp_eq (store : Store) (userId : ℕ) :
    store.goingUp userId = total (Attachment.upFor userId) store.attachments :=
  total_filter _ _ _

/-- Nothing counts for more than it did. -/
structure Lighter (store store' : Store) : Prop where
  pool : store'.poolUsed ≤ store.poolUsed
  goingUp : ∀ userId, store'.goingUp userId ≤ store.goingUp userId

theorem Lighter.trans {store'' : Store} (h : Lighter store store') (h' : Lighter store' store'') :
    Lighter store store'' :=
  ⟨h'.pool.trans h.pool, fun userId => (h'.goingUp userId).trans (h.goingUp userId)⟩

theorem Lighter.of_total
    (hpool : total Attachment.pooled store'.attachments ≤ total Attachment.pooled store.attachments)
    (hup : ∀ userId, total (Attachment.upFor userId) store'.attachments ≤
      total (Attachment.upFor userId) store.attachments) : Lighter store store' :=
  ⟨by rw [poolUsed_eq, poolUsed_eq]; exact hpool,
    fun userId => by rw [goingUp_eq, goingUp_eq]; exact hup userId⟩

theorem Lighter.of_rows (h : store'.attachments = store.attachments) : Lighter store store' :=
  .of_total (by rw [h]) (by simp [h])

/-- A row is written, and counts for no more than it did. -/
theorem lighter_writes {f : Attachment → Attachment} (hpool : ∀ a, (f a).pooled ≤ a.pooled)
    (hup : ∀ userId a, (f a).upFor userId ≤ a.upFor userId) :
    Lighter store (store.writes id f) := by
  cases ha : store.attachments[id]? with
  | none => exact .of_rows (modify_of_none ha f)
  | some a =>
    apply Lighter.of_total
    · have hsum := total_modify Attachment.pooled ha f
      have hless := hpool a
      show total _ (store.attachments.modify id f) ≤ _
      omega
    · intro userId
      have hsum := total_modify (Attachment.upFor userId) ha f
      have hless := hup userId a
      show total _ (store.attachments.modify id f) ≤ _
      omega

theorem lighter_deletesWhere (p : Attachment → Bool) : Lighter store (store.deletesWhere id p) := by
  rw [Store.deletesWhere]
  split
  · exact .of_total (total_erase_le _ _ _) (fun _ => total_erase_le _ _ _)
  · exact .of_rows rfl

theorem lighter_attach (ids : List ℕ) : Lighter store (store.attach ids) := by
  have hsame : ∀ w : Attachment → ℕ, (∀ a messageId, w { a with messageId := messageId } = w a) →
      total w (store.attach ids).attachments = total w store.attachments := by
    intro w hw
    apply congrArg List.sum
    apply vals_map_congr
    intro other
    rw [Store.attach, attach_at, Option.map_map]
    congr 1
    funext a
    show w (if _ then _ else _) = w a
    split
    · exact hw a _
    · rfl
  apply Lighter.of_total
  · exact (hsame Attachment.pooled fun _ _ => rfl).le
  · exact fun userId => (hsame (Attachment.upFor userId) fun _ _ => rfl).le

theorem lighter_erase (messageIds : List ℕ) (now : ℕ) :
    Lighter store (messageIds.foldl (fun store id => store.tombstone id now) store) := by
  induction messageIds generalizing store with
  | nil => exact .of_rows rfl
  | cons id messageIds ih =>
    have hfirst : Lighter store (store.tombstone id now) := .of_rows rfl
    exact hfirst.trans ih

theorem lighter_setStar (starredAt : Option ℕ) : Lighter store (setStar store id starredAt) := by
  apply lighter_writes
  · intro a
    split <;> exact le_rfl
  · intro userId a
    split <;> exact le_rfl

/-- A cleaned file written over its slot counts for its own size, and goes up no longer. -/
theorem completes_weighs (store : Store) (id : ℕ) (file : Processed) :
    (∀ userId, (store.writes id fun a => a.completed file).goingUp userId ≤ store.goingUp userId) ∧
      ∀ a, store.attachments[id]? = some a →
        (store.writes id fun a => a.completed file).poolUsed + a.pooled =
          store.poolUsed + file.sizeBytes := by
  constructor
  · intro userId
    rw [goingUp_eq, goingUp_eq]
    cases ha : store.attachments[id]? with
    | none => exact (congrArg (total _) (modify_of_none ha _)).le
    | some a =>
      have hsum := total_modify (Attachment.upFor userId) ha fun a => a.completed file
      have hnone : (a.completed file).upFor userId = 0 := by
        simp [Attachment.upFor, Attachment.completed]
      show total _ (store.attachments.modify id _) ≤ _
      omega
  · intro a ha
    rw [poolUsed_eq, poolUsed_eq]
    exact total_modify Attachment.pooled ha fun a => a.completed file

/-- A slot is reserved only where there is room for it. -/
theorem create_fits {config : Config} {tasks : FMap ℕ Task} (h : Fits config ⟨store, tasks⟩)
    (userId sizeBytes now : ℕ) :
    Fits config ⟨create config store userId sizeBytes now, tasks⟩ := by
  unfold create
  split
  · exact h
  · next hroom =>
    push Not at hroom
    obtain ⟨-, -, hup, hpool⟩ := hroom
    have hadded : ∀ w : Attachment → ℕ, total w (store.attachments.insert store.made
        ⟨none, userId, false, none, sizeBytes, none, .pending, now⟩) ≤
          w ⟨none, userId, false, none, sizeBytes, none, .pending, now⟩ +
            total w store.attachments := by
      intro w
      rw [total_insert]
      exact Nat.add_le_add_left (total_erase_le w _ _) _
    constructor
    · have hless := hadded Attachment.pooled
      rw [poolUsed_eq] at hpool ⊢
      have hweight : Attachment.pooled ⟨none, userId, false, none, sizeBytes, none, .pending, now⟩ =
          sizeBytes := rfl
      dsimp only at hpool ⊢
      omega
    · intro other
      have hless := hadded (Attachment.upFor other)
      have hbefore := h.goingUp other
      rw [goingUp_eq] at hbefore ⊢
      dsimp only at hbefore ⊢
      by_cases hsame : userId = other
      · subst hsame
        rw [goingUp_eq] at hup
        have hweight : Attachment.upFor userId ⟨none, userId, false, none, sizeBytes, none,
            .pending, now⟩ = sizeBytes := by
          simp [Attachment.upFor]
        omega
      · have hweight : Attachment.upFor other ⟨none, userId, false, none, sizeBytes, none, .pending,
            now⟩ = 0 := by
          simp [Attachment.upFor, hsame]
        omega

end Weights

section Steps
variable {config : Config} {st st' : Server} {event : Event}

theorem Fits.lighter (h : Fits config st) (hless : Lighter st.store st'.store) : Fits config st' :=
  ⟨hless.pool.trans h.pool, fun userId => (hless.goingUp userId).trans (h.goingUp userId)⟩

/-- What one statement leaves, unless it is the one that writes a cleaned file, counts for no
more. -/
theorem Wrote.lighter {store store' : Store} {answer : Answer} {task : Task}
    (h : Wrote store answer task store') :
    Lighter store store' ∨ ∃ id file, task = .writesComplete id file ∧ answer ≠ .refused ∧
      store' = store.writes id fun a => a.completed file := by
  cases h with
  | bytes same => exact .inl (.of_rows same.attachments)
  | @completes id file place ok => exact .inr ⟨id, file, place, ok, rfl⟩
  | fails place ok =>
    left
    apply lighter_writes
    · intro a
      simp [Attachment.pooled]
    · intro userId a
      simp [Attachment.upFor]
  | releases id =>
    left
    apply lighter_writes
    · intro a
      unfold Attachment.released
      split
      · simp [Attachment.pooled]
      · exact le_rfl
    · intro userId a
      unfold Attachment.released
      split
      · simp [Attachment.upFor]
      · exact le_rfl
  | forgets id p => exact .inl (lighter_deletesWhere p)
  | begins place => exact .inl (.of_rows begins_kept.1)
  | copy place => exact .inl (.of_rows rfl)
  | posts place => exact .inl (lighter_attach _)
  | pins place pinnedAt shown => exact .inl (.of_rows rfl)
  | tombstones messageId now => exact .inl (.of_rows rfl)

theorem step_fits (h : Fits config st) (hs : st.step config event = some st') :
    Fits config st' ↔ Room config st event := by
  cases event with
  | create userId sizeBytes now =>
    cases hs
    exact iff_of_true (create_fits h userId sizeBytes now) trivial
  | arrives id number bytes =>
    cases hs
    exact iff_of_true (h.lighter (.of_rows rfl)) trivial
  | star id starredAt =>
    cases hs
    exact iff_of_true (h.lighter (lighter_setStar starredAt)) trivial
  | erase messageIds now =>
    cases hs
    exact iff_of_true (h.lighter (lighter_erase messageIds now)) trivial
  | request i request =>
    dsimp only [Server.step] at hs
    split at hs
    · cases hs
    · exact iff_of_true
        (h.lighter (.of_rows (congrArg Store.attachments (begins_store hs)))) trivial
  | stops i =>
    cases hs
    exact iff_of_true (h.lighter (.of_rows rfl)) trivial
  | step i now answer =>
    obtain ⟨task, hi, rfl⟩ := Option.map_eq_some_iff.mp hs
    have hstore := Server.goesOn_store st i (advance st.store now answer task)
    rw [Room, hi]
    have hwrote : Wrote st.store answer task (advance st.store now answer task).1 := advance_wrote
    -- A statement puts no more in the pool, unless it writes a cleaned file over its slot.
    rcases hwrote.lighter with hless | ⟨id, file, rfl, hok, hwrites⟩
    · refine iff_of_true (h.lighter (hstore ▸ hless)) ?_
      cases task with
      | writesComplete id file =>
        by_cases hok : answer = .refused
        · exact .inl hok
        · right
          intro a ha
          have hweighs := (completes_weighs st.store id file).2 a ha
          have hpool := hless.pool
          rw [advance, if_neg hok] at hpool
          dsimp only at hpool
          have hbefore := h.pool
          omega
      | _ => trivial
    -- The cleaned file: the pool has what it had less the slot, and the file.
    · rw [hwrites] at hstore
      obtain ⟨hup, hpool⟩ := completes_weighs st.store id file
      constructor
      · intro hfits
        right
        intro a ha
        have hweighs := hpool a ha
        have hafter := hfits.pool
        rw [hstore] at hafter
        omega
      · intro hroom
        constructor
        · rw [hstore]
          cases ha : st.store.attachments[id]? with
          | none =>
            have hsame : Lighter st.store (st.store.writes id fun a => a.completed file) :=
              .of_rows (modify_of_none ha _)
            exact hsame.pool.trans h.pool
          | some a =>
            have hweighs := hpool a ha
            have hfit := hroom.resolve_left hok a ha
            omega
        · intro userId
          rw [hstore]
          exact (hup userId).trans (h.goingUp userId)

/-- Every state of a run fits its pool just when every cleaned file the run writes over its slot
does. -/
theorem pool_fits_iff {events : List Event} (hr : (machine config).run events = some st) :
    (∀ before after s, events = before ++ after → (machine config).run before = some s →
      s.store.poolUsed ≤ config.poolBytes ∧ ∀ userId, s.store.goingUp userId ≤ MAX_GOING_UP_BYTES) ↔
    (machine config).Meets (Room config) events := by
  have hstart : Fits config (machine config).start := by
    constructor
    · rw [poolUsed_eq]
      exact Nat.zero_le _
    · intro userId
      rw [goingUp_eq]
      exact Nat.zero_le _
  have hstates := (machine config).states_iff_meets hstart (fun s event t hs => step_fits hs) hr
  rw [← hstates]
  constructor
  · exact fun h before after s hsplit hs =>
      ⟨(h before after s hsplit hs).1, (h before after s hsplit hs).2⟩
  · exact fun h before after s hsplit hs =>
      ⟨(h before after s hsplit hs).pool, (h before after s hsplit hs).goingUp⟩

end Steps

instance (config : Config) (st : Server) (event : Event) : Decidable (Room config st event) := by
  refine Event.casesOn event ?_ ?_ ?_ ?_ ?_ ?_ ?_ <;> intros <;> unfold Room <;> dsimp only <;>
    (try refine putIn st.tasks fun tasks => ?_) <;> (try split) <;> infer_instance

/-- A pool of 500 MiB. -/
def smallPool : Config := ⟨.off, 524288000⟩

/-- A picture with no other copy of it, of so many bytes as it is stored: a WebP comes back as a
PNG. -/
def stored (sizeBytes : ℕ) : Processed := ⟨sizeBytes, true, false, false⟩

/-- One person fills the pool but for a thousand bytes, and another reserves those for a picture,
whose part arrives and is cleaned and stored. -/
def filling (sizeBytes : ℕ) : List Event :=
  [.create 1 524287000 0, .create 2 1000 0, .arrives 1 1 1000, .request 0 (.complete 1 2),
    .step 0 0 .ok, .step 0 0 (.processed (stored sizeBytes)), .step 0 0 .ok, .step 0 0 .ok,
    .step 0 0 .ok, .step 0 0 .ok]

/-- With the picture no bigger than it was, every state fits. -/
theorem pool_fits_iff_finished : ∃ st, (machine host).run finished = some st ∧
    ∀ before after s, finished = before ++ after → (machine host).run before = some s →
      s.store.poolUsed ≤ host.poolBytes ∧ ∀ userId, s.store.goingUp userId ≤ MAX_GOING_UP_BYTES :=
  ⟨_, rfl, (@pool_fits_iff host _ finished rfl).mpr (by decide +kernel)⟩

/-- The picture the pool had a thousand bytes for takes three thousand of it. And a slot given up
while its file is stored, whose room was then reserved again, comes back as a file. -/
theorem pool_oversold :
    (∃ st, (machine smallPool).run (filling 3000) = some st ∧
      smallPool.poolBytes < st.store.poolUsed) ∧
    ∃ st, (machine smallPool).run ((filling 1000).take 9 ++
        [.request 1 (.cancel 1 2), .step 1 0 .ok, .step 1 0 .ok, .step 1 0 .ok, .create 3 1000 0] ++
        (filling 1000).drop 9) =
          some st ∧
      smallPool.poolBytes < st.store.poolUsed := by
  constructor
  · exact ⟨_, rfl, by decide +kernel⟩
  · exact ⟨_, rfl, by decide +kernel⟩

end Linger.Uploads
