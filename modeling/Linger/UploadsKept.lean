import Linger.PutIn
import Linger.UploadsDue

/-! Files that are kept: nothing of them is deleted while a star or a pin keeps them, in any order
of the passes, the requests and the stars. -/
namespace Linger.Uploads
open FiniteMap StepMachine TaskPool

/-- No message goes, and none that was deleted is back. -/
def Remembers (store store' : Store) : Prop :=
  ∀ (messageId : ℕ) (message : Message), store.messages[messageId]? = some message → ∃ message',
    store'.messages[messageId]? = some message' ∧
      (message.deletedAt.isSome = true → message'.deletedAt.isSome = true)

section Writes
variable {store store' : Store} {answer : Answer} {task : Task} {held : Held} {messageId now : ℕ}

theorem remembers_of_messages (h : store'.messages = store.messages) : Remembers store store' := by
  intro m message hm
  rw [h]
  exact ⟨message, hm, fun hd => hd⟩

theorem remembers_attach (h : Sound store) (ids : List ℕ) : Remembers store (store.attach ids) := by
  intro m message hm
  have := h.posted m message hm
  refine ⟨message, ?_, fun hd => hd⟩
  simp only [Store.attach, insert_at]
  rw [if_neg (by omega)]
  exact hm

theorem remembers_modify {f : Message → Message}
    (hf : ∀ message, message.deletedAt.isSome = true → (f message).deletedAt.isSome = true) :
    Remembers store { store with messages := store.messages.modify messageId f } := by
  intro m message hm
  simp only [modify_at, hm, Option.map_some]
  split
  · exact ⟨f message, rfl, hf message⟩
  · exact ⟨message, rfl, fun hd => hd⟩

theorem Store.Erases.keeps (h : store.Erases task) (hkeeps : Remembers store store') :
    store'.Erases task := by
  cases task with
  | tombstones messageId =>
    obtain ⟨message, hmessage⟩ := h
    obtain ⟨message', hmessage', -⟩ := hkeeps messageId message hmessage
    exact ⟨message', hmessage'⟩
  | readsFiles messageId =>
    obtain ⟨message, hmessage, hdeleted⟩ := h
    obtain ⟨message', hmessage', hstill⟩ := hkeeps messageId message hmessage
    exact ⟨message', hmessage', hstill hdeleted⟩
  | _ => trivial

theorem released_kept (a : Attachment) :
    a.released.messageId = a.messageId ∧ a.released.starredAt = a.starredAt := by
  rw [Attachment.released]
  split <;> exact ⟨rfl, rfl⟩

theorem begins_begun : (begins store held answer).begun =
    store.begun ++ [⟨held.id, held.rule, store.kept held.id, store.onMessage held.id⟩] := by
  dsimp only [begins]
  split <;> rfl

theorem begins_kept : (begins store held answer).attachments = store.attachments ∧
    (begins store held answer).messages = store.messages ∧
    (begins store held answer).made = store.made ∧
    (begins store held answer).posted = store.posted := by
  dsimp only [begins]
  split <;> exact ⟨rfl, rfl, rfl, rfl⟩

theorem Sound.same (h : Sound store) (hattachments : store'.attachments = store.attachments)
    (hmessages : store'.messages = store.messages) (hmade : store'.made = store.made)
    (hposted : store'.posted = store.posted) : Sound store' := by
  refine h.of_rows hmade hposted (fun m => by rw [hmessages]) fun id a ha => ?_
  rw [hattachments] at ha
  exact ⟨a, ha, rfl, .inl⟩

theorem Due.same (h : Due store held) (hattachments : store'.attachments = store.attachments)
    (hmessages : store'.messages = store.messages) (hmade : store'.made = store.made) :
    Due store' held := by
  refine ⟨by rw [hmade]; exact h.made, fun a ha => ?_⟩
  rw [hattachments] at ha
  exact (h.row a ha).same hmessages rfl fun _ => .inr rfl

theorem Wrote.sound (h : Wrote store answer task store') (hsound : Sound store) : Sound store' := by
  cases h with
  | bytes same => exact hsound.same same.attachments same.messages same.made same.posted
  | completes place ok => exact hsound.writes (fun _ => rfl) fun _ => .inl
  | fails place ok => exact hsound.writes (fun _ => rfl) fun _ => .inl
  | releases id =>
    refine hsound.writes (fun a => (released_kept a).1) fun a hstar => .inl ?_
    rw [(released_kept a).2] at hstar
    exact hstar
  | forgets id p => exact hsound.deletesWhere id p
  | @begins held rest place =>
    obtain ⟨hattachments, hmessages, hmade, hposted⟩ := @begins_kept store answer held
    exact hsound.same hattachments hmessages hmade hposted
  | copy place => exact hsound.same rfl rfl rfl rfl
  | posts place => exact hsound.attach _
  | pins place pinnedAt => exact hsound.messages _ _
  | tombstones messageId now => exact hsound.messages _ _

theorem Wrote.remembers (h : Wrote store answer task store') (hsound : Sound store) :
    Remembers store store' := by
  cases h with
  | bytes same => exact remembers_of_messages same.messages
  | forgets id p =>
    rw [Store.deletesWhere]
    split <;> exact remembers_of_messages rfl
  | begins place => exact remembers_of_messages begins_kept.2.1
  | posts place => exact remembers_attach hsound _
  | pins place pinnedAt => exact remembers_modify fun _ hd => hd
  | tombstones messageId now => exact remembers_modify fun _ _ => rfl
  | _ => exact remembers_of_messages rfl

theorem Wrote.due (h : Wrote store answer task store') (hsound : Sound store)
    (hdue : Due store held)
    (hposts : ∀ ids, task = .posts ids → held.id ∈ ids → held.rule.ofNobody = false)
    (hpins : ∀ messageId, task = .pins messageId true → held.rule.byAge = true →
      ∀ a, store.attachments[held.id]? = some a → a.messageId ≠ some messageId) :
        Due store' held := by
  cases h with
  | bytes same => exact hdue.same same.attachments same.messages same.made
  | completes place ok => exact hdue.writes (fun _ => rfl) fun _ _ _ => .inr rfl
  | fails place ok => exact hdue.writes (fun _ => rfl) fun _ _ _ => .inr rfl
  | releases id =>
    exact hdue.writes (fun a => (released_kept a).1) fun _ _ a => .inr (released_kept a).2
  | forgets id p => exact hdue.deletesWhere id p
  | @begins held rest place =>
    obtain ⟨hattachments, hmessages, hmade, -⟩ := @begins_kept store answer held
    exact hdue.same hattachments hmessages hmade
  | copy place => exact hdue.same rfl rfl rfl
  | posts place => exact hdue.attach hsound (hposts _ place)
  | @pins messageId pinned place pinnedAt shown =>
    cases pinned with
    | false => exact hdue.pin (.inl (shown rfl))
    | true => exact hdue.pin (.inr (hpins messageId place))
  | tombstones messageId now => exact hdue.tombstone messageId now

/-- A deletion that begins is written down with what is so of its file then. -/
theorem Wrote.begun (h : Wrote store answer task store') : store'.begun = store.begun ∨
    ∃ held rest, task = .deletes held rest ∧ store'.begun =
      store.begun ++ [⟨held.id, held.rule, store.kept held.id, store.onMessage held.id⟩] := by
  cases h with
  | bytes same => exact .inl same.begun
  | forgets id p =>
    rw [Store.deletesWhere]
    split <;> exact .inl rfl
  | begins place => exact .inr ⟨_, _, place, begins_begun⟩
  | _ => exact .inl rfl

/-- Bytes go by the deletion of their file, its original first. -/
theorem Wrote.objects (h : Wrote store answer task store') {key : ℕ × Part}
    (hkey : key ∈ store.objects)
    (hgone : key ∉ store'.objects) :
    task.deleting = some key.1 ∨ ∃ held rest, task = .deletes held rest ∧ held.id = key.1 := by
  have hdeleted (id : ℕ) (part : Part) (hnot : key ∉ (store.deleteObject id part).objects) :
      id = key.1 := by
    by_contra hne
    apply hnot
    refine List.mem_filter.mpr ⟨hkey, ?_⟩
    simp only [bne_iff_ne, ne_eq]
    rintro rfl
    exact hne rfl
  cases h with
  | bytes same => exact absurd (same.objects key hkey) hgone
  | forgets id p =>
    rw [Store.deletesWhere] at hgone
    split at hgone <;> exact absurd hkey hgone
  | @begins held rest place =>
    refine .inr ⟨held, rest, place, ?_⟩
    dsimp only [Uploads.begins] at hgone
    split at hgone
    · exact absurd hkey hgone
    · exact hdeleted held.id .object hgone
  | @copy held part copies row rest place =>
    refine .inl ?_
    rw [place, ← hdeleted held.id part hgone]
    rfl
  | _ => exact absurd hkey hgone

end Writes

/-- What a task carries of the files it is about to delete, or is deleting. -/
structure Carries (store : Store) (task : Task) : Prop where
  due : ∀ held ∈ task.waiting, Due store held
  erases : store.Erases task
  deleting : ∀ id ∈ task.deleting, ∃ e ∈ store.begun, e.id = id

/-- What holds in every run in which nobody is too late. -/
structure Keeping (st : Server) : Prop where
  sound : Sound st.store
  tasks : All st.tasks (Carries st.store)
  kept : ∀ e ∈ st.store.begun, e.rule ≠ .emoji → e.kept = false
  nobody : ∀ e ∈ st.store.begun, e.rule.ofNobody = true → e.onMessage = false

section Steps
variable {config : Config} {st st' : Server} {store' : Store} {event : Event} {task : Task}
  {i now : ℕ}
  {answer : Answer}

theorem Carries.keeps {store : Store} (h : Carries store task)
    (hdue : ∀ held ∈ task.waiting, Due store held → Due store' held)
    (hremembers : Remembers store store') (hbegun : ∀ e ∈ store.begun, e ∈ store'.begun) :
    Carries store' task := by
  refine ⟨fun held hheld => hdue held hheld (h.due held hheld), h.erases.keeps hremembers,
    fun id hid => ?_⟩
  obtain ⟨e, he, hsame⟩ := h.deleting id hid
  exact ⟨e, hbegun e he, hsame⟩

/-- Something else is written, by nobody who is deleting anything. -/
theorem Keeping.writes (h : Keeping st) (hsound : Sound store')
    (hremembers : Remembers st.store store')
    (hbegun : store'.begun = st.store.begun)
    (hdue : All st.tasks fun task => ∀ held ∈ task.waiting, Due st.store held → Due store' held) :
    Keeping { st with store := store' } := by
  refine ⟨hsound, fun j task hj => (h.tasks j task hj).keeps (hdue j task hj) hremembers ?_, ?_,
    ?_⟩ <;>
    rw [hbegun]
  · exact fun e he => he
  · exact h.kept
  · exact h.nobody

theorem Keeping.goesOn (h : Keeping ⟨store', st.tasks⟩) {next : Option Task}
    (hnext : ∀ task ∈ next, Carries store' task) : Keeping (st.goesOn i (store', next)) := by
  cases next with
  | none => exact ⟨h.sound, h.tasks.erase i, h.kept, h.nobody⟩
  | some task => exact ⟨h.sound, h.tasks.insert i (hnext task rfl), h.kept, h.nobody⟩

/-- A statement of a task that isn't too late for any other. -/
theorem Keeping.advance (h : Keeping st) (hi : st.tasks[i]? = some task)
    (hok : Unraced st (.step i now answer)) :
    Keeping (st.goesOn i (advance st.store now answer task)) := by
  have hwrote : Wrote st.store answer task (Uploads.advance st.store now answer task).1 :=
    advance_wrote
  have hcarries := h.tasks i task hi
  have hothers (j : ℕ) (other : Task) (hj : st.tasks[j]? = some other) (held : Held)
      (hheld : held ∈ other.waiting) (hdue : Due st.store held) :
      Due (Uploads.advance st.store now answer task).1 held := by
    have hhas (p : Held → Bool) (hp : p held = true) :
        Has st.tasks fun task => task.waiting.any p :=
      has_iff.mpr ⟨j, other, hj, List.any_eq_true.mpr ⟨held, hheld, hp⟩⟩
    apply hwrote.due h.sound hdue
    · rintro ids rfl hmem
      rw [Unraced, hi] at hok
      by_contra hrule
      exact hok (hhas _ (by simp [hmem, hrule]))
    · rintro messageId rfl hbyAge a ha hon
      rw [Unraced, hi] at hok
      exact hok (hhas _ (by simp [hbyAge, ha, hon]))
  have hbegun (e : Begun) (he : e ∈ st.store.begun) :
      e ∈ (Uploads.advance st.store now answer task).1.begun := by
    rcases hwrote.begun with hsame | ⟨held, rest, -, hnew⟩
    · rw [hsame]
      exact he
    · rw [hnew]
      exact List.mem_append_left _ he
  -- what is written down of a deletion that begins was chosen, so it isn't kept
  have hlast (e : Begun) (he : e ∈ (Uploads.advance st.store now answer task).1.begun) :
      e ∈ st.store.begun ∨ ∃ held, Due st.store held ∧
        e = ⟨held.id, held.rule, st.store.kept held.id, st.store.onMessage held.id⟩ := by
    rcases hwrote.begun with hsame | ⟨held, rest, rfl, hnew⟩
    · rw [hsame] at he
      exact .inl he
    · rw [hnew] at he
      rcases List.mem_append.mp he with hold | hlast
      · exact .inl hold
      · exact .inr ⟨held, hcarries.due held (.head _), List.mem_singleton.mp hlast⟩
  have hkeeping : Keeping ⟨(Uploads.advance st.store now answer task).1, st.tasks⟩ := by
    refine ⟨hwrote.sound h.sound, fun j other hj => (h.tasks j other hj).keeps (hothers j other hj)
      (hwrote.remembers h.sound) hbegun, fun e he hrule => ?_, fun e he hrule => ?_⟩
    · rcases hlast e he with hold | ⟨held, hdue, rfl⟩
      · exact h.kept e hold hrule
      · exact hdue.kept h.sound hrule
    · rcases hlast e he with hold | ⟨held, hdue, rfl⟩
      · exact h.nobody e hold hrule
      · exact hdue.onMessage hrule
  apply hkeeping.goesOn
  intro next hnext
  have hfollows := advance_follows h.sound hcarries.erases hnext
  refine ⟨fun held hheld => ?_, hfollows.erases, fun id hid => ?_⟩
  · rcases hfollows.waiting held hheld with hold | ⟨hsame, hdue⟩
    · exact hothers i task hi held hold (hcarries.due held hold)
    · rw [hsame]
      exact hdue
  · rcases hfollows.deleting id hid with hold | ⟨held, rest, rfl, rfl⟩
    · obtain ⟨e, he, hsame⟩ := hcarries.deleting id hold
      exact ⟨e, hbegun e he, hsame⟩
    · refine ⟨⟨held.id, held.rule, st.store.kept held.id, st.store.onMessage held.id⟩, ?_, rfl⟩
      rw [Uploads.advance, begins_begun]
      exact List.mem_append_right _ (.head _)

theorem erase_objects {store : Store} (messageIds : List ℕ) :
    (messageIds.foldl (fun store id => store.tombstone id now) store).objects = store.objects := by
  induction messageIds generalizing store with
  | nil => rfl
  | cons messageId messageIds ih => exact ih

theorem Keeping.begins (h : Keeping st) {request : Request}
    (hs : st.begins config i request = some st') :
    Keeping st' := by
  have hbegin (request : Request) :
      Keeping (st.goesOn i (st.store, begin config st.store request)) := by
    apply h.goesOn
    intro task htask
    obtain ⟨hdue, hdeleting, herases⟩ := begin_due h.sound htask
    refine ⟨hdue, herases, fun id hid => ?_⟩
    rw [hdeleting] at hid
    cases hid
  cases request with
  | makeRoomFor sizeBytes =>
    dsimp only [Server.begins] at hs
    split at hs
    · cases hs
    · cases hs
      exact hbegin _
  | keepRoom =>
    dsimp only [Server.begins] at hs
    split at hs <;> cases hs
    · exact h
    · exact hbegin _
  | _ =>
    cases hs
    exact hbegin _

theorem setStar_sound {store : Store} (h : Sound store) (id : ℕ) (starredAt : Option ℕ) :
    Sound (setStar store id starredAt) := by
  apply h.writes
  · intro a
    split <;> rfl
  · intro a hstar
    split at hstar
    · next hon => exact .inr (Option.isSome_iff_ne_none.mp hon.2)
    · exact .inl hstar

theorem Keeping.star (h : Keeping st) (id : ℕ) (starredAt : Option ℕ)
    (hok : Unraced st (.star id starredAt)) :
    Keeping { st with store := setStar st.store id starredAt } := by
  refine h.writes (setStar_sound h.sound id starredAt) (remembers_of_messages rfl) rfl
    fun j task hj held hheld hdue => ?_
  refine hdue.writes (fun a => by split <;> rfl) fun hid hbyAge a => ?_
  cases starredAt with
  | none =>
    split
    · exact .inl rfl
    · exact .inr rfl
  | some starredAt =>
    exact absurd
      (has_iff.mpr ⟨j, task, hj, List.any_eq_true.mpr ⟨held, hheld, by simp [hid, hbyAge]⟩⟩) hok

theorem Keeping.step (h : Keeping st) (hok : Unraced st event)
    (hs : st.step config event = some st') :
    Keeping st' := by
  cases event with
  | create userId sizeBytes now =>
    cases hs
    have hmessages : (create config st.store userId sizeBytes now).messages = st.store.messages ∧
        (create config st.store userId sizeBytes now).begun = st.store.begun := by
      rw [create]
      split <;> exact ⟨rfl, rfl⟩
    exact h.writes (h.sound.create config userId sizeBytes now) (remembers_of_messages hmessages.1)
      hmessages.2 fun _ _ _ _ _ hdue => hdue.create config userId sizeBytes now
  | arrives id number bytes =>
    cases hs
    exact h.writes (h.sound.same rfl rfl rfl rfl) (remembers_of_messages rfl) rfl
      fun _ _ _ _ _ hdue => hdue.same rfl rfl rfl
  | star id starredAt =>
    cases hs
    exact h.star id starredAt hok
  | erase messageIds now =>
    cases hs
    clear hok
    induction messageIds generalizing st with
    | nil => exact h
    | cons messageId messageIds ih =>
      have hfirst : Keeping { st with store := st.store.tombstone messageId now } :=
        h.writes (h.sound.messages _ _) (remembers_modify fun _ _ => rfl) rfl
          fun _ _ _ _ _ hdue => hdue.tombstone messageId now
      exact ih hfirst
  | request i request =>
    dsimp only [Server.step] at hs
    split at hs
    · cases hs
    · exact h.begins hs
  | step i now answer =>
    obtain ⟨task, hi, rfl⟩ := Option.map_eq_some_iff.mp hs
    exact h.advance hi hok
  | stops i =>
    cases hs
    exact ⟨h.sound, h.tasks.erase i, h.kept, h.nobody⟩

/-- Whose bytes go, its deletion began. -/
theorem Keeping.objects (h : Keeping st) (hs : st.step config event = some st') {key : ℕ × Part}
    (hkey : key ∈ st.store.objects) (hgone : key ∉ st'.store.objects) :
    ∃ e ∈ st'.store.begun, e.id = key.1 := by
  have hsame (hobjects : st'.store.objects = st.store.objects) :
      ∃ e ∈ st'.store.begun, e.id = key.1 := by
    rw [hobjects] at hgone
    exact absurd hkey hgone
  cases event with
  | create userId sizeBytes now =>
    cases hs
    apply hsame
    dsimp only
    rw [create]
    split <;> rfl
  | arrives id number bytes =>
    cases hs
    exact hsame rfl
  | star id starredAt =>
    cases hs
    exact hsame rfl
  | erase messageIds now =>
    cases hs
    exact hsame (erase_objects messageIds)
  | request i request =>
    dsimp only [Server.step] at hs
    split at hs
    · cases hs
    · exact hsame (congrArg Store.objects (begins_store hs))
  | step i now answer =>
    obtain ⟨task, hi, rfl⟩ := Option.map_eq_some_iff.mp hs
    rw [Server.goesOn_store] at hgone ⊢
    have hwrote : Wrote st.store answer task (Uploads.advance st.store now answer task).1 :=
      advance_wrote
    rcases hwrote.objects hkey hgone with hdeleting | ⟨held, rest, rfl, hid⟩
    · obtain ⟨e, he, hid⟩ := (h.tasks i task hi).deleting key.1 hdeleting
      refine ⟨e, ?_, hid⟩
      rcases hwrote.begun with hkept | ⟨_, _, -, hnew⟩
      · rw [hkept]
        exact he
      · rw [hnew]
        exact List.mem_append_left _ he
    · refine ⟨⟨held.id, held.rule, st.store.kept held.id, st.store.onMessage held.id⟩, ?_, hid⟩
      rw [Uploads.advance, begins_begun]
      exact List.mem_append_right _ (.head _)
  | stops i =>
    cases hs
    exact hsame rfl

/-- In every run in which nobody stars a file, pins its message or posts it after it was read by
what is about to delete it: no deletion by a pass, a removal or a cancel begins of a file that is
kept, none of a file that was on no message begins while its message is there, and no bytes go but
by their file's deletion. -/
theorem kept_files_stay {events : List Event} (hm : (machine config).Meets Unraced events)
    (hr : (machine config).run events = some st) :
    (∀ e ∈ st.store.begun, e.rule ≠ .emoji → e.kept = false) ∧
    (∀ e ∈ st.store.begun, e.rule.ofNobody = true → e.onMessage = false) ∧
    ∀ event st', st.step config event = some st' →
      ∀ key ∈ st.store.objects, key ∉ st'.store.objects → ∃ e ∈ st'.store.begun, e.id = key.1 := by
  have hstart : Keeping (machine config).start := by
    refine ⟨⟨fun id a ha => ?_, fun m message hm => ?_, fun id a ha => ?_, fun id a ha => ?_⟩,
      all_empty, fun e he => ?_, fun e he => ?_⟩
    · simp [machine] at ha
    · simp [machine] at hm
    · simp [machine] at ha
    · simp [machine] at ha
    · cases he
    · cases he
  have h : Keeping st := (machine config).invariant_of_meets (I := Keeping) hstart
    (fun _ _ _ h hok hl => h.step hok hl) hm hr
  exact ⟨h.kept, h.nobody, fun event st' hs key hkey hgone => h.objects hs hkey hgone⟩

end Steps

instance (st : Server) (event : Event) : Decidable (Unraced st event) := by
  refine Event.casesOn event ?_ ?_ ?_ ?_ ?_ ?_ ?_
  on_goal 3 =>
    intro id starredAt
    refine Option.casesOn starredAt ?_ fun t => ?_
  on_goal 7 =>
    intro i now answer
    unfold Unraced
    dsimp only
    refine putIn st.tasks[i]? fun found => ?_
  all_goals
    intros
    try unfold Unraced
    try dsimp only
    (repeat' split) <;> infer_instance

/-- A month later a pass reads the posted picture and deletes it, its row last. -/
def sweeping : List Event :=
  [.request 3 (.sweep (31 * DAY_MS)), .step 3 0 .ok, .step 3 0 .ok, .step 3 0 .ok, .step 3 0 .ok]

/-- Its message is deleted, and what it carried with it. -/
def deleting : List Event :=
  [.request 3 (.delete 0), .step 3 0 .ok, .step 3 0 .ok, .step 3 0 .ok, .step 3 0 .ok,
    .step 3 0 .ok]

theorem kept_files_stay_sweeping :
    ∃ st, (machine host).run (finished ++ posting ++ sweeping) = some st ∧ st.store.objects = [] ∧
      (∀ e ∈ st.store.begun, e.rule ≠ .emoji → e.kept = false) ∧
      (∀ e ∈ st.store.begun, e.rule.ofNobody = true → e.onMessage = false) ∧
      ∀ event st', st.step host event = some st' →
        ∀ key ∈ st.store.objects, key ∉ st'.store.objects → ∃ e ∈ st'.store.begun, e.id = key.1 :=
  ⟨_, rfl, by decide +kernel,
    @kept_files_stay host _ (finished ++ posting ++ sweeping) (by decide +kernel) rfl⟩

/-- A starred picture goes with its message when that is deleted. And one starred between the pass
reading it and deleting it goes too, off a message that is there. -/
theorem starred_file_deleted :
    (∃ st st', (machine host).run (finished ++ posting ++ [.star 0 (some 5)]) = some st ∧
      (machine host).runFrom st deleting = some st' ∧ st.store.kept 0 = true ∧
      (0, Part.object) ∈ st.store.objects ∧ (0, Part.object) ∉ st'.store.objects) ∧
    ∃ st st', (machine host).run (finished ++ posting ++ sweeping.take 1 ++ [.star 0 (some 5)]) =
      some st ∧ (machine host).runFrom st (sweeping.drop 1) = some st' ∧ st.store.kept 0 = true ∧
      (0, Part.object) ∈ st.store.objects ∧ (0, Part.object) ∉ st'.store.objects := by
  constructor
  · exact ⟨_, _, rfl, rfl, by decide +kernel, by decide +kernel, by decide +kernel⟩
  · exact ⟨_, _, rfl, rfl, by decide +kernel, by decide +kernel, by decide +kernel⟩

end Linger.Uploads
