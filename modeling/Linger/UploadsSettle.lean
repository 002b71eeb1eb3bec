import Linger.Uploads

/-! A slot settles once: what a request or a pass leaves of a slot that has been finished,
refused or given back. -/
namespace Linger.Uploads
open FiniteMap StepMachine TaskPool

/-- A slot that has settled stays as it is or goes, and no slot comes back. -/
structure Stays (store store' : Store) : Prop where
  made : store.made ≤ store'.made
  rows : ∀ id a', store'.attachments[id]? = some a' → (store.made ≤ id ∧ id < store'.made) ∨
    ∃ a, store.attachments[id]? = some a ∧ (a.state = .pending ∨ a'.state = a.state)

/-- The last UPDATE of a slot that was being completed finds it pending, or gone, or as it is
about to leave it. -/
def Settles (st : Server) : Event → Prop
  | .step i _ answer =>
    match st.tasks[i]? with
    | some (.writesComplete id _) => answer = .refused ∨
      ∀ a ∈ st.store.attachments[id]?, a.state = .pending ∨ a.state = .complete
    | some (.writesFailed id) => answer = .refused ∨
      ∀ a ∈ st.store.attachments[id]?, a.state = .pending ∨ a.state = .failed
    | _ => True
  | _ => True

section Stays
variable {store store' store'' : Store} {id now : ℕ}

theorem Stays.of_rows (hrows : store'.attachments = store.attachments)
    (hmade : store'.made = store.made) : Stays store store' := by
  refine ⟨le_of_eq hmade.symm, fun id a' h => ?_⟩
  rw [hrows] at h
  exact .inr ⟨a', h, .inr rfl⟩

theorem Stays.refl (store : Store) : Stays store store := .of_rows rfl rfl

theorem Stays.trans (h : Stays store store') (h' : Stays store' store'') : Stays store store'' := by
  refine ⟨h.made.trans h'.made, fun id a'' ha'' => ?_⟩
  rcases h'.rows id a'' ha'' with ⟨hnew, hlt⟩ | ⟨a', ha', hstate'⟩
  · exact .inl ⟨h.made.trans hnew, hlt⟩
  · rcases h.rows id a' ha' with ⟨hnew, hlt⟩ | ⟨a, ha, hstate⟩
    · exact .inl ⟨hnew, lt_of_lt_of_le hlt h'.made⟩
    · refine .inr ⟨a, ha, ?_⟩
      rcases hstate with hpending | hsame
      · exact .inl hpending
      · rw [← hsame]
        exact hstate'

/-- A row is written, and what had settled keeps its state. -/
theorem stays_writes {f : Attachment → Attachment}
    (hf : ∀ a, store.attachments[id]? = some a → a.state = .pending ∨ (f a).state = a.state) :
    Stays store (store.writes id f) := by
  refine ⟨le_refl _, fun other a' ha' => .inr ?_⟩
  simp only [Store.writes, modify_at] at ha'
  split at ha'
  · next hsame =>
    obtain ⟨a, ha, rfl⟩ := Option.map_eq_some_iff.mp ha'
    refine ⟨a, ha, hf a ?_⟩
    rw [← hsame]
    exact ha
  · exact ⟨a', ha', .inr rfl⟩

theorem stays_deletesWhere (p : Attachment → Bool) : Stays store (store.deletesWhere id p) := by
  rw [Store.deletesWhere]
  split
  · refine ⟨le_refl _, fun other a' ha' => .inr ?_⟩
    simp only [erase_at] at ha'
    split at ha'
    · cases ha'
    · exact ⟨a', ha', .inr rfl⟩
  · exact .refl store

theorem stays_attach (ids : List ℕ) : Stays store (store.attach ids) := by
  refine ⟨le_refl _, fun other a' ha' => .inr ?_⟩
  rw [Store.attach, attach_at] at ha'
  obtain ⟨a, ha, rfl⟩ := Option.map_eq_some_iff.mp ha'
  refine ⟨a, ha, .inr ?_⟩
  split <;> rfl

theorem stays_create (config : Config) (userId sizeBytes : ℕ) :
    Stays store (create config store userId sizeBytes now) := by
  rw [create]
  split
  · exact .refl store
  · refine ⟨Nat.le_succ _, fun other a' ha' => ?_⟩
    simp only [insert_at] at ha'
    split at ha'
    · next hsame =>
      rw [hsame]
      exact .inl ⟨le_refl _, Nat.lt_succ_self _⟩
    · exact .inr ⟨a', ha', .inr rfl⟩

theorem stays_erase (messageIds : List ℕ) :
    Stays store (messageIds.foldl (fun store id => store.tombstone id now) store) := by
  induction messageIds generalizing store with
  | nil => exact .refl store
  | cons id messageIds ih =>
    have hfirst : Stays store (store.tombstone id now) := .of_rows rfl rfl
    exact hfirst.trans ih

/-- What one statement leaves of the slots. -/
theorem Wrote.stays {answer : Answer} {task : Task} (h : Wrote store answer task store')
    (hcomplete : ∀ id file, task = .writesComplete id file → answer = .refused ∨
      ∀ a ∈ store.attachments[id]?, a.state = .pending ∨ a.state = .complete)
    (hfailed : ∀ id, task = .writesFailed id → answer = .refused ∨
      ∀ a ∈ store.attachments[id]?, a.state = .pending ∨ a.state = .failed) :
        Stays store store' := by
  cases h with
  | bytes same => exact .of_rows same.attachments same.made
  | @completes id file place ok =>
    apply stays_writes
    intro a ha
    rcases (hcomplete id file place).resolve_left ok a ha with hpending | hsame
    · exact .inl hpending
    · exact .inr hsame.symm
  | @fails id place ok =>
    apply stays_writes
    intro a ha
    rcases (hfailed id place).resolve_left ok a ha with hpending | hsame
    · exact .inl hpending
    · exact .inr hsame.symm
  | releases id =>
    -- this UPDATE looks at the state again, so only a pending slot is released
    apply stays_writes
    intro a _
    by_cases hpending : a.state = .pending
    · exact .inl hpending
    · exact .inr (by rw [Attachment.released, if_neg hpending])
  | forgets id p => exact stays_deletesWhere p
  | begins place =>
    dsimp only [Uploads.begins]
    split <;> exact .of_rows rfl rfl
  | copy place => exact .of_rows rfl rfl
  | posts place => exact stays_attach _
  | pins place pinnedAt => exact .of_rows rfl rfl
  | tombstones messageId now => exact .of_rows rfl rfl

end Stays

section Steps
variable {config : Config} {st st' : Server} {event : Event}

theorem Server.goesOn_store (st : Server) (i : ℕ) (next : Store × Option Task) :
    (st.goesOn i next).store = next.1 := by
  obtain ⟨store, task⟩ := next
  cases task <;> rfl

theorem begins_store {i : ℕ} {request : Request} (hs : st.begins config i request = some st') :
    st'.store = st.store := by
  cases request with
  | makeRoomFor sizeBytes =>
    dsimp only [Server.begins] at hs
    split at hs
    · cases hs
    · cases hs
      exact st.goesOn_store i _
  | keepRoom =>
    dsimp only [Server.begins] at hs
    split at hs
    · cases hs
      rfl
    · cases hs
      exact st.goesOn_store i _
  | _ =>
    cases hs
    exact st.goesOn_store i _

theorem step_stays (hok : Settles st event) (hs : st.step config event = some st') :
    Stays st.store st'.store := by
  cases event with
  | create userId sizeBytes now =>
    cases hs
    exact stays_create config userId sizeBytes
  | arrives id number bytes =>
    cases hs
    exact .of_rows rfl rfl
  | star id starredAt =>
    cases hs
    apply stays_writes
    intro a _
    right
    split <;> rfl
  | erase messageIds now =>
    cases hs
    exact stays_erase messageIds
  | request i request =>
    dsimp only [Server.step] at hs
    split at hs
    · cases hs
    · rw [begins_store hs]
      exact .refl st.store
  | step i now answer =>
    obtain ⟨task, hi, rfl⟩ := Option.map_eq_some_iff.mp hs
    rw [Server.goesOn_store]
    rw [Settles, hi] at hok
    apply advance_wrote.stays
    · rintro id file rfl
      exact hok
    · rintro id rfl
      exact hok
  | stops i =>
    cases hs
    exact .refl st.store

/-- In every run whose completing requests each find their slot pending, gone, or as they leave it
when they write it for the last time: a slot that has been finished, refused or given back keeps
that state for as long as it has a row, and a slot whose row went has none again. -/
theorem slots_settle_once {before after : List Event}
    (hm : (machine config).Meets Settles (before ++ after))
    (hr : (machine config).run before = some st)
    (hr' : (machine config).runFrom st after = some st') :
    (∀ (id : ℕ) (a a' : Attachment), st.store.attachments[id]? = some a → a.state ≠ .pending →
      st'.store.attachments[id]? = some a' → a'.state = a.state) ∧
    ∀ id < st.store.made, st.store.attachments[id]? = none → st'.store.attachments[id]? = none := by
  have hlater := ((machine config).meetsFrom_append Settles _ before after).mp hm
  have hbefore : Stays (machine config).start.store st.store :=
    (machine config).keeps_from (I := fun st => Stays (machine config).start.store st.store)
      (fun _ _ _ h hok hl => h.trans (step_stays hok hl)) (.refl _) hlater.1 hr
  have hafter : Stays st.store st'.store :=
    (machine config).keeps_from (I := fun next => Stays st.store next.store)
      (fun _ _ _ h hok hl => h.trans (step_stays hok hl)) (.refl _) (hlater.2 st hr) hr'
  refine ⟨fun id a a' ha hsettled ha' => ?_, fun id hid hnone => ?_⟩
  · -- its id was used, so the row is the one it had
    have hid : id < st.store.made := by
      rcases hbefore.rows id a ha with hnew | ⟨old, hold, -⟩
      · exact hnew.2
      · simp [machine] at hold
    rcases hafter.rows id a' ha' with hnew | ⟨old, hold, hstate⟩
    · omega
    · cases ha.symm.trans hold
      exact hstate.resolve_left hsettled
  · rw [Option.eq_none_iff_forall_ne_some]
    intro a' ha'
    rcases hafter.rows id a' ha' with hnew | ⟨old, hold, -⟩
    · omega
    · rw [hnone] at hold
      cases hold

end Steps

instance (st : Server) (event : Event) : Decidable (Settles st event) := by
  cases event <;> unfold Settles <;> dsimp only <;> (try split) <;> infer_instance

def host : Config := ⟨.after 30, 1000000⟩

/-- A picture of ten bytes with a small copy of it. -/
def picture : Processed := ⟨10, true, false, true⟩

/-- A slot is reserved, its one part arrives, and completing it stores the picture. -/
def finished : List Event :=
  [.create 1 10 0, .arrives 0 1 10, .request 0 (.complete 0 1), .step 0 0 .ok,
    .step 0 0 (.processed picture), .step 0 0 .ok, .step 0 0 .ok, .step 0 0 .ok, .step 0 0 .ok,
    .step 0 0 .ok, .step 0 0 .ok]

/-- It is posted. -/
def posting : List Event :=
  [.request 2 (.post 1 [0]), .step 2 0 .ok, .step 2 0 .ok, .step 2 0 .ok, .step 2 0 .ok]

/-- The slot is given up. -/
def cancelling : List Event :=
  [.request 1 (.cancel 0 1), .step 1 0 .ok, .step 1 0 .ok, .step 1 0 .ok]

/-- A retry of completing it. -/
def retrying : List Event := [.request 1 (.complete 0 1), .step 1 0 .ok]

theorem slots_settle_once_posting :
    ∃ st st', (machine host).run finished = some st ∧
      (machine host).runFrom st (posting ++ cancelling.take 1) = some st' ∧
      (st'.store.attachments[0]?).map Attachment.state = some .complete ∧
      (∀ (id : ℕ) (a a' : Attachment), st.store.attachments[id]? = some a → a.state ≠ .pending →
        st'.store.attachments[id]? = some a' → a'.state = a.state) ∧
      ∀ id < st.store.made, st.store.attachments[id]? = none → st'.store.attachments[id]? = none :=
  ⟨_, _, rfl, rfl, by decide +kernel,
    @slots_settle_once host _ _ finished (posting ++ cancelling.take 1) (by decide +kernel) rfl rfl⟩

/-- A slot given up between the store and the last UPDATE of completing it: its space was given
back, and it comes back as a file. And a retry that assembled the parts before they went finds
them gone, and the posted file fails. -/
theorem settled_slots_written_over :
    (∃ st st', (machine host).run (finished.take 7 ++ cancelling) = some st ∧
      (machine host).runFrom st (finished.drop 7) = some st' ∧
      (st.store.attachments[0]?).map Attachment.state = some .released ∧
      (st'.store.attachments[0]?).map Attachment.state = some .complete) ∧
    ∃ st st', (machine host).run (finished.take 4 ++ retrying ++ finished.drop 4 ++ posting) =
      some st ∧
      (machine host).runFrom st [.step 1 0 .refused, .step 1 0 .ok, .step 1 0 .ok] = some st' ∧
      (st.store.attachments[0]?).map (fun a => (a.state, a.messageId)) = some (.complete, some 0) ∧
      (st'.store.attachments[0]?).map (fun a => (a.state, a.messageId)) =
        some (.failed, some 0) := by
  constructor
  · exact ⟨_, _, rfl, rfl, by decide +kernel, by decide +kernel⟩
  · exact ⟨_, _, rfl, rfl, by decide +kernel, by decide +kernel⟩

end Linger.Uploads
