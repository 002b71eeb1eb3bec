import Linger.UploadsSettle

/-! What a pass, a member's removal and a cancelled upload have read of the files they are about to
delete, and for how long it is so. -/
namespace Linger.Uploads
open FiniteMap StepMachine TaskPool

def Rest.waiting : Rest → List Held
  | .files rows => rows.filter fun held => held.state != .pending
  | .oldest _ _ _ rows => rows
  | _ => []

/-- The files a task has read and will begin to delete. -/
def Task.waiting : Task → List Held
  | .asksPicture held => if held.state = .complete then [held] else []
  | .throwsAway held => [held]
  | .deletes held rest => held :: rest.waiting
  | .deletesCopies _ _ _ rest | .deletesRow _ rest => rest.waiting
  | .releases _ rest | .discards _ rest | .discardsLast _ rest | .forgets _ rest => rest.waiting
  | .asksStore _ _ rest => rest.waiting
  | _ => []

/-- The file whose copies are being deleted. -/
def Task.deleting : Task → Option ℕ
  | .deletesCopies held _ _ _ => some held.id
  | _ => none

/-- A star or a pin keeps what these take. -/
def Rule.byAge : Rule → Bool
  | .old | .oldest => true
  | _ => false

/-- And a post what these do. -/
def Rule.ofNobody : Rule → Bool
  | .unposted | .removed | .cancelled => true
  | _ => false

/-- Nobody stars or posts a file, or pins its message, between its being read by what is going to
delete it and its deletion. -/
def Unraced (st : Server) : Event → Prop
  | .star id (some _) =>
    ¬ Has st.tasks fun task => task.waiting.any fun held => held.id == id && held.rule.byAge
  | .step i _ _ =>
    match st.tasks[i]? with
    | some (.posts ids) =>
      ¬ Has st.tasks fun task => task.waiting.any fun held => ids.contains held.id &&
        held.rule.ofNobody
    | some (.pins messageId true) =>
      ¬ Has st.tasks fun task => task.waiting.any fun held => held.rule.byAge &&
        (st.store.attachments[held.id]?).any fun a => a.messageId == some messageId
    | _ => True
  | _ => True

/-- Its message is deleted. -/
def Store.Gone (store : Store) (a : Attachment) : Prop :=
  ∃ message, store.message a = some message ∧ message.deletedAt.isSome = true

/-- What a file was chosen for is so still. -/
def Chosen (store : Store) (a : Attachment) : Rule → Prop
  | .emoji => True
  | .deleted => store.Gone a
  | .old | .oldest => store.Gone a ∨
    a.starredAt = none ∧ ∃ message, store.message a = some message ∧ message.pinnedAt = none
  | .unposted | .removed | .cancelled => a.messageId = none

/-- Deleting a message goes on to the files of one that is deleted. -/
def Store.Erases (store : Store) : Task → Prop
  | .tombstones messageId => ∃ message, store.messages[messageId]? = some message
  | .readsFiles messageId => ∃ message, store.messages[messageId]? = some message ∧
    message.deletedAt.isSome = true
  | _ => True

/-- A file that is read has an id that isn't new, and no row or one it was chosen for. -/
structure Due (store : Store) (held : Held) : Prop where
  made : held.id < store.made
  row : ∀ a, store.attachments[held.id]? = some a → Chosen store a held.rule

structure Sound (store : Store) : Prop where
  made : ∀ (id : ℕ) (a : Attachment), store.attachments[id]? = some a → id < store.made
  posted : ∀ (messageId : ℕ) (message : Message), store.messages[messageId]? = some message →
    messageId < store.posted
  on : ∀ (id : ℕ) (a : Attachment), store.attachments[id]? = some a → ∀ messageId : ℕ,
    a.messageId = some messageId → (store.messages[messageId]?).isSome = true
  starred : ∀ (id : ℕ) (a : Attachment), store.attachments[id]? = some a →
    a.starredAt ≠ none → a.messageId ≠ none

section Store
variable {store store' : Store} {id messageId now : ℕ} {a a' : Attachment} {rule : Rule}
  {held : Held}

/-- A kept file is not one that was chosen. -/
theorem kept_of_chosen (h : Sound store) (ha : store.attachments[id]? = some a)
    (hchosen : Chosen store a rule) (hrule : rule ≠ .emoji) : store.kept id = false := by
  have hgone (hgone : store.Gone a) : store.kept id = false := by
    obtain ⟨message, hmessage, hdeleted⟩ := hgone
    have hlive : message.deletedAt.isNone = false := by
      rw [Option.isNone_eq_false_iff]
      exact hdeleted
    simp [Store.kept, ha, hmessage, hlive]
  have hnobody (hnone : a.messageId = none) : store.kept id = false := by
    have hmessage : store.message a = none := by rw [Store.message, hnone, Option.bind_none]
    simp only [Store.kept, ha, hmessage]
    by_contra hstar
    exact h.starred id a ha (by simpa using hstar) hnone
  have hage (hdue : store.Gone a ∨ a.starredAt = none ∧ ∃ message, store.message a = some message ∧
      message.pinnedAt = none) : store.kept id = false := by
    rcases hdue with hdue | ⟨hstar, message, hmessage, hpin⟩
    · exact hgone hdue
    · simp [Store.kept, ha, hmessage, hstar, hpin]
  cases rule with
  | emoji => exact absurd rfl hrule
  | deleted => exact hgone hchosen
  | old => exact hage hchosen
  | oldest => exact hage hchosen
  | unposted => exact hnobody hchosen
  | removed => exact hnobody hchosen
  | cancelled => exact hnobody hchosen

theorem Due.kept (h : Due store held) (hsound : Sound store) (hrule : held.rule ≠ .emoji) :
    store.kept held.id = false := by
  cases ha : store.attachments[held.id]? with
  | none => simp [Store.kept, ha]
  | some a => exact kept_of_chosen hsound ha (h.row a ha) hrule

theorem Due.onMessage (h : Due store held) (hrule : held.rule.ofNobody = true) :
    store.onMessage held.id = false := by
  cases ha : store.attachments[held.id]? with
  | none => simp [Store.onMessage, ha]
  | some a =>
    have hnone : a.messageId = none := by
      have hchosen := h.row a ha
      cases hr : held.rule <;> rw [hr] at hrule hchosen <;> first | exact hchosen | cases hrule
    simp [Store.onMessage, ha, Store.message, hnone]

/-- Only the message of a row is looked at, and for those that go by their age its star. -/
theorem Chosen.same (h : Chosen store a rule) (hmessages : store'.messages = store.messages)
    (hmessage : a'.messageId = a.messageId)
    (hstar : rule.byAge = true → a'.starredAt = none ∨ a'.starredAt = a.starredAt) :
    Chosen store' a' rule := by
  have he : store'.message a' = store.message a := by
    rw [Store.message, Store.message, hmessage, hmessages]
  have hgone (hgone : store.Gone a) : store'.Gone a' := by
    rw [Store.Gone, he]
    exact hgone
  have hage (hbyAge : rule.byAge = true) (hage : store.Gone a ∨ a.starredAt = none ∧
      ∃ message, store.message a = some message ∧ message.pinnedAt = none) : store'.Gone a' ∨
        a'.starredAt = none ∧ ∃ message, store'.message a' = some message ∧
          message.pinnedAt = none := by
    rcases hage with hdue | ⟨hnone, hpin⟩
    · exact .inl (hgone hdue)
    · have hstar := hstar hbyAge
      rw [hnone, or_self] at hstar
      rw [he]
      exact .inr ⟨hstar, hpin⟩
  cases rule with
  | emoji => trivial
  | deleted => exact hgone h
  | old => exact hage rfl h
  | oldest => exact hage rfl h
  | unposted => exact hmessage.trans h
  | removed => exact hmessage.trans h
  | cancelled => exact hmessage.trans h

/-- Messages are written: none that was deleted is back, and a pin comes only on a message whose
files nobody is about to take by their age. -/
theorem Chosen.messages (h : Chosen store a rule)
    (hmessages : ∀ m message, store.messages[m]? = some message → ∃ message',
      store'.messages[m]? = some message' ∧
        (message.deletedAt.isSome = true → message'.deletedAt.isSome = true) ∧
        (rule.byAge = true → a.messageId = some m → message.pinnedAt = none →
          message'.pinnedAt = none)) :
    Chosen store' a rule := by
  have hgone (hgone : store.Gone a) : store'.Gone a := by
    obtain ⟨message, hmessage, hdeleted⟩ := hgone
    obtain ⟨m, hm, hmessage⟩ := Option.bind_eq_some_iff.mp hmessage
    obtain ⟨message', hmessage', hkeeps, -⟩ := hmessages m message hmessage
    refine ⟨message', ?_, hkeeps hdeleted⟩
    rw [Store.message, hm]
    exact hmessage'
  have hage (hbyAge : rule.byAge = true) (hage : store.Gone a ∨ a.starredAt = none ∧
      ∃ message, store.message a = some message ∧ message.pinnedAt = none) : store'.Gone a ∨
        a.starredAt = none ∧ ∃ message, store'.message a = some message ∧
          message.pinnedAt = none := by
    rcases hage with hdue | ⟨hstar, message, hmessage, hpin⟩
    · exact .inl (hgone hdue)
    · obtain ⟨m, hm, hmessage⟩ := Option.bind_eq_some_iff.mp hmessage
      obtain ⟨message', hmessage', -, hkeeps⟩ := hmessages m message hmessage
      refine .inr ⟨hstar, message', ?_, hkeeps hbyAge hm hpin⟩
      rw [Store.message, hm]
      exact hmessage'
  cases rule with
  | emoji => trivial
  | deleted => exact hgone h
  | old => exact hage rfl h
  | oldest => exact hage rfl h
  | unposted => exact h
  | removed => exact h
  | cancelled => exact h

/-- A row is written, not the message it is on nor, except to take it away, its star. -/
theorem Due.writes (h : Due store held) {f : Attachment → Attachment}
    (hmessage : ∀ a, (f a).messageId = a.messageId)
    (hstar : held.id = id → held.rule.byAge = true → ∀ a,
      (f a).starredAt = none ∨ (f a).starredAt = a.starredAt) : Due (store.writes id f) held := by
  refine ⟨h.made, fun a' ha' => ?_⟩
  simp only [Store.writes, modify_at] at ha'
  split at ha'
  · next hsame =>
    obtain ⟨a, ha, rfl⟩ := Option.map_eq_some_iff.mp ha'
    exact (h.row a ha).same rfl (hmessage a) fun hbyAge => hstar hsame hbyAge a
  · exact (h.row a' ha').same rfl rfl fun _ => .inr rfl

theorem Due.deletesWhere (h : Due store held) (id : ℕ) (p : Attachment → Bool) :
    Due (store.deletesWhere id p) held := by
  rw [Store.deletesWhere]
  split
  · refine ⟨h.made, fun a' ha' => ?_⟩
    simp only [erase_at] at ha'
    split at ha'
    · cases ha'
    · exact (h.row a' ha').same rfl rfl fun _ => .inr rfl
  · exact h

/-- Messages of these files are made, of none that nobody had posted. -/
theorem Due.attach (h : Due store held) (hsound : Sound store) {ids : List ℕ}
    (hids : held.id ∈ ids → held.rule.ofNobody = false) : Due (store.attach ids) held := by
  refine ⟨h.made, fun a' ha' => ?_⟩
  rw [Store.attach, attach_at] at ha'
  obtain ⟨a, ha, rfl⟩ := Option.map_eq_some_iff.mp ha'
  have hmessages : Chosen (store.attach ids) a held.rule := by
    apply (h.row a ha).messages
    intro m message hm
    refine ⟨message, ?_, fun hd => hd, fun _ _ hp => hp⟩
    simp only [Store.attach, insert_at]
    have := hsound.posted m message hm
    rw [if_neg (by omega)]
    exact hm
  split
  · next hmem =>
    cases hm : a.messageId with
    | some m => exact hmessages.same rfl (by simp [hm]) fun _ => .inr rfl
    | none =>
      have hnone : held.rule = .emoji := by
        have hchosen := h.row a ha
        have hgone : ¬ store.Gone a := by
          rintro ⟨message, hmessage, -⟩
          simp [Store.message, hm] at hmessage
        have hof := hids hmem
        cases hr : held.rule <;> rw [hr] at hchosen hof
        · rcases hchosen with hdue | ⟨-, message, hmessage, -⟩
          · exact absurd hdue hgone
          · simp [Store.message, hm] at hmessage
        · exact absurd hchosen hgone
        · cases hof
        · rcases hchosen with hdue | ⟨-, message, hmessage, -⟩
          · exact absurd hdue hgone
          · simp [Store.message, hm] at hmessage
        · cases hof
        · cases hof
      rw [hnone]
      trivial
  · exact hmessages

theorem Due.pin (h : Due store held) {pinnedAt : Option ℕ}
    (hpin : pinnedAt = none ∨ (held.rule.byAge = true → ∀ a, store.attachments[held.id]? = some a →
      a.messageId ≠ some messageId)) : Due (store.pin messageId pinnedAt) held := by
  refine ⟨h.made, fun a ha => (h.row a ha).messages fun m message hm => ?_⟩
  simp only [Store.pin, modify_at, hm, Option.map_some]
  split
  · next hsame =>
    refine ⟨_, rfl, fun hd => hd, fun hbyAge hon _ => ?_⟩
    rcases hpin with hnone | hother
    · exact hnone
    · exact absurd (hon.trans (congrArg some hsame)) (hother hbyAge a ha)
  · exact ⟨message, rfl, fun hd => hd, fun _ _ hp => hp⟩

theorem Due.tombstone (h : Due store held) (messageId now : ℕ) :
    Due (store.tombstone messageId now) held := by
  refine ⟨h.made, fun a ha => (h.row a ha).messages fun m message hm => ?_⟩
  simp only [Store.tombstone, modify_at, hm, Option.map_some]
  split
  · exact ⟨_, rfl, fun _ => rfl, fun _ _ _ => rfl⟩
  · exact ⟨message, rfl, fun hd => hd, fun _ _ hp => hp⟩

/-- Rows are written or go, none is put on a message, and messages are written. -/
theorem Sound.of_rows (h : Sound store) (hmade : store'.made = store.made)
    (hposted : store'.posted = store.posted)
    (hmessages : ∀ m : ℕ, (store'.messages[m]?).isSome = (store.messages[m]?).isSome)
    (hrows : ∀ (id : ℕ) (a' : Attachment), store'.attachments[id]? = some a' →
      ∃ a, store.attachments[id]? = some a ∧ a'.messageId = a.messageId ∧
        (a'.starredAt ≠ none → a.starredAt ≠ none ∨ a.messageId ≠ none)) : Sound store' := by
  refine ⟨fun id a' ha' => ?_, fun m message' hm => ?_, fun id a' ha' m hm => ?_,
    fun id a' ha' hstar => ?_⟩
  · obtain ⟨a, ha, -, -⟩ := hrows id a' ha'
    rw [hmade]
    exact h.made id a ha
  · have hsome : (store.messages[m]?).isSome = true := by
      rw [← hmessages, hm]
      rfl
    obtain ⟨message, hmessage⟩ := Option.isSome_iff_exists.mp hsome
    rw [hposted]
    exact h.posted m message hmessage
  · obtain ⟨a, ha, hmessage, -⟩ := hrows id a' ha'
    rw [hmessages]
    exact h.on id a ha m (hmessage.symm.trans hm)
  · obtain ⟨a, ha, hmessage, hstarred⟩ := hrows id a' ha'
    rw [hmessage]
    rcases hstarred hstar with hold | hon
    · exact h.starred id a ha hold
    · exact hon

theorem Sound.writes (h : Sound store) {f : Attachment → Attachment}
    (hmessage : ∀ a, (f a).messageId = a.messageId)
    (hstar : ∀ a, (f a).starredAt ≠ none → a.starredAt ≠ none ∨ a.messageId ≠ none) :
    Sound (store.writes id f) := by
  refine h.of_rows rfl rfl (fun _ => rfl) ?_
  intro other a' ha'
  simp only [Store.writes, modify_at] at ha'
  split at ha'
  · obtain ⟨a, ha, rfl⟩ := Option.map_eq_some_iff.mp ha'
    exact ⟨a, ha, hmessage a, hstar a⟩
  · exact ⟨a', ha', rfl, .inl⟩

theorem Sound.deletesWhere (h : Sound store) (id : ℕ) (p : Attachment → Bool) :
    Sound (store.deletesWhere id p) := by
  rw [Store.deletesWhere]
  split
  · refine h.of_rows rfl rfl (fun _ => rfl) ?_
    intro other a' ha'
    simp only [erase_at] at ha'
    split at ha'
    · cases ha'
    · exact ⟨a', ha', rfl, .inl⟩
  · exact h

/-- Messages are written. -/
theorem Sound.messages (h : Sound store) (messageId : ℕ) (f : Message → Message) :
    Sound { store with messages := store.messages.modify messageId f } := by
  refine h.of_rows rfl rfl (fun m => ?_) fun _ a ha => ⟨a, ha, rfl, .inl⟩
  simp only [modify_at]
  split
  · exact Option.isSome_map
  · rfl

theorem Sound.attach (h : Sound store) (ids : List ℕ) : Sound (store.attach ids) := by
  have hrow (id : ℕ) (a' : Attachment) (ha' : (store.attach ids).attachments[id]? = some a') :
      ∃ a, store.attachments[id]? = some a ∧ a'.starredAt = a.starredAt ∧
        (a'.messageId = a.messageId ∨ a'.messageId = some store.posted) ∧
        (a.messageId ≠ none → a'.messageId = a.messageId) := by
    rw [Store.attach, attach_at] at ha'
    obtain ⟨a, ha, rfl⟩ := Option.map_eq_some_iff.mp ha'
    refine ⟨a, ha, ?_⟩
    cases hm : a.messageId <;> split <;> simp [hm]
  have hold (m : ℕ) (message : Message) (hm : store.messages[m]? = some message) :
      (store.attach ids).messages[m]? = some message := by
    have := h.posted m message hm
    simp only [Store.attach, insert_at]
    rw [if_neg (by omega)]
    exact hm
  refine ⟨fun id a' ha' => ?_, fun m message hm => ?_, fun id a' ha' m hm => ?_,
    fun id a' ha' hstar => ?_⟩
  · obtain ⟨a, ha, -⟩ := hrow id a' ha'
    exact h.made id a ha
  · simp only [Store.attach, insert_at] at hm ⊢
    split at hm
    · omega
    · exact Nat.lt_succ_of_lt (h.posted m message hm)
  · obtain ⟨a, ha, -, hwas | hnew, -⟩ := hrow id a' ha'
    · obtain ⟨message, hmessage⟩ :=
        Option.isSome_iff_exists.mp (h.on id a ha m (hwas.symm.trans hm))
      rw [hold m message hmessage]
      rfl
    · cases hnew.symm.trans hm
      simp [Store.attach]
  · obtain ⟨a, ha, hstarred, -, hkeeps⟩ := hrow id a' ha'
    rw [hstarred] at hstar
    have hon := h.starred id a ha hstar
    rw [hkeeps hon]
    exact hon

theorem Sound.create (h : Sound store) (config : Config) (userId sizeBytes now : ℕ) :
    Sound (create config store userId sizeBytes now) := by
  rw [Uploads.create]
  split
  · exact h
  · refine ⟨fun id a' ha' => ?_, h.posted, fun id a' ha' => ?_, fun id a' ha' => ?_⟩ <;>
      simp only [insert_at] at ha' <;> split at ha'
    · next hsame =>
      rw [hsame]
      exact Nat.lt_succ_self _
    · exact Nat.lt_succ_of_lt (h.made id a' ha')
    · cases ha'
      intro m hm
      cases hm
    · exact h.on id a' ha'
    · cases ha'
      intro hstar
      exact absurd rfl hstar
    · exact h.starred id a' ha'

theorem Due.create (h : Due store held) (config : Config) (userId sizeBytes now : ℕ) :
    Due (create config store userId sizeBytes now) held := by
  rw [Uploads.create]
  split
  · exact h
  · refine ⟨Nat.lt_succ_of_lt h.made, fun a' ha' => ?_⟩
    have hne := h.made
    simp only [insert_at] at ha'
    rw [if_neg (by omega)] at ha'
    exact (h.row a' ha').same rfl rfl fun _ => .inr rfl

end Store

/-- Of what a query chooses, each is a row, for the rule it was chosen by. -/
theorem mem_chosen {store : Store} {rule : ℕ → Attachment → Option Rule} {e : ℕ × Held}
    (h : e ∈ store.chosen rule) : ∃ a r, store.attachments[e.2.id]? = some a ∧
      rule e.2.id a = some r ∧ e.2.rule = r := by
  obtain ⟨⟨id, a⟩, hmem, he⟩ := List.mem_filterMap.mp h
  obtain ⟨r, hr, rfl⟩ := Option.map_eq_some_iff.mp he
  exact ⟨a, r, Std.ExtTreeMap.mem_toList_iff_getElem?_eq_some.mp hmem, hr, rfl⟩

theorem mem_oldestFirst {rows : List (ℕ × Held)} {held : Held} (h : held ∈ oldestFirst rows) :
    ∃ e ∈ rows, e.2 = held := by
  obtain ⟨e, hmem, he⟩ := List.mem_map.mp h
  exact ⟨e, (List.mem_insertionSort _).mp (List.mem_of_mem_take hmem), he⟩

section Reads
variable {config : Config} {store : Store} {held : Held} {userId messageId now id : ℕ}
  {a : Attachment}
  {r : Rule}

theorem expired_chosen (h : Sound store) (ha : store.attachments[id]? = some a)
    (hr : expired config store now id a = some r) : Chosen store a r := by
  rw [expired] at hr
  split at hr
  · cases hr
  · split at hr
    · next message hmessage =>
      split at hr
      · next hdeleted =>
        cases hr
        exact ⟨message, hmessage, hdeleted⟩
      · split at hr
        · next hold =>
          cases hr
          simp only [Bool.and_eq_true, Option.isNone_iff_eq_none] at hold
          exact .inr ⟨hold.1.1, message, hmessage, hold.1.2⟩
        · cases hr
    · next hnone =>
      split at hr
      · cases hr
        -- a message is never gone, so a row with none of them was never put on one
        rw [Chosen]
        by_contra hon
        obtain ⟨m, hm⟩ := Option.ne_none_iff_exists'.mp hon
        have := h.on id a ha m hm
        rw [Store.message, hm, Option.bind_some] at hnone
        rw [hnone] at this
        cases this
      · cases hr

theorem takeable_chosen (hr : takeable store a = some r) : Chosen store a r := by
  rw [takeable] at hr
  split at hr
  · next hfree =>
    split at hr
    · next message hmessage =>
      split at hr
      · next hpin =>
        cases hr
        simp only [Bool.and_eq_true, Option.isNone_iff_eq_none] at hpin
        exact .inr ⟨hfree.2, message, hmessage, hpin.2⟩
      · cases hr
    · cases hr
  · cases hr

theorem unsent_chosen (hr : unsent store userId id a = some r) : Chosen store a r := by
  rw [unsent] at hr
  split at hr
  · next hfree =>
    cases hr
    exact hfree.2.1
  · cases hr

/-- What a query chooses is due. -/
theorem due_of_chosen (h : Sound store) {rule : ℕ → Attachment → Option Rule}
    (hrule : ∀ id a r, store.attachments[id]? = some a → rule id a = some r → Chosen store a r)
    {e : ℕ × Held} (he : e ∈ store.chosen rule) : Due store e.2 := by
  obtain ⟨a, r, ha, hr, hsame⟩ := mem_chosen he
  refine ⟨h.made _ a ha, fun b hb => ?_⟩
  cases ha.symm.trans hb
  rw [hsame]
  exact hrule _ a r ha hr

end Reads

section Waiting
variable {rest : Rest} {task : Task} {held : Held}

theorem idleNext_waiting {now : ℕ} {rows : List Quiet} (h : idleNext now rows = some task) :
    task.waiting = [] ∧ task.deleting = none ∧ ∀ store : Store, store.Erases task := by
  induction rows with
  | nil => cases h
  | cons row rows ih =>
    rw [idleNext] at h
    split at h
    · cases h
      exact ⟨rfl, rfl, fun _ => trivial⟩
    · split at h
      · cases h
        exact ⟨rfl, rfl, fun _ => trivial⟩
      · exact ih h

/-- Going on to the next row, a pass is about to delete no more than it was. -/
theorem next_waiting (h : rest.next = some task) :
    (∀ held ∈ task.waiting, held ∈ rest.waiting) ∧ task.deleting = none ∧
      ∀ store : Store, store.Erases task := by
  cases rest with
  | done => cases h
  | idle now rows =>
    obtain ⟨hnone, hdeleting, herases⟩ := idleNext_waiting h
    rw [hnone]
    exact ⟨fun held hheld => (by cases hheld), hdeleting, herases⟩
  | files rows =>
    cases rows with
    | nil => cases h
    | cons row rows =>
      rw [Rest.next] at h
      split at h
      · next hpending =>
        cases h
        refine ⟨fun held hheld => ?_, rfl, fun _ => trivial⟩
        rw [Rest.waiting, List.filter_cons, if_neg (by simp [hpending])]
        exact hheld
      · next hsettled =>
        cases h
        refine ⟨fun held hheld => ?_, rfl, fun _ => trivial⟩
        rw [Rest.waiting, List.filter_cons, if_pos (by simpa using hsettled)]
        exact hheld
  | oldest target excess freed rows =>
    cases rows with
    | nil =>
      rw [Rest.next] at h
      split at h
      · cases h
      · cases h
        exact ⟨fun held hheld => (by cases hheld), rfl, fun _ => trivial⟩
    | cons row rows =>
      rw [Rest.next] at h
      split at h
      · cases h
        exact ⟨fun held hheld => hheld, rfl, fun _ => trivial⟩
      · cases h
        exact ⟨fun held hheld => (by cases hheld), rfl, fun _ => trivial⟩

/-- What a task has read when it goes on, and the file whose copies it then deletes. -/
structure Follows (store : Store) (task : Task) (store' : Store) (task' : Task) : Prop where
  waiting : ∀ held ∈ task'.waiting, held ∈ task.waiting ∨ store' = store ∧ Due store held
  deleting : ∀ id ∈ task'.deleting, task.deleting = some id ∨
    ∃ held rest, task = .deletes held rest ∧ held.id = id
  erases : store'.Erases task'

variable {store store' : Store} {task' : Task} {answer : Answer} {now : ℕ}

theorem Follows.fresh (hwaiting : task'.waiting = []) (hdeleting : task'.deleting = none)
    (herases : store'.Erases task') : Follows store task store' task' := by
  refine ⟨fun held hheld => ?_, fun id hid => ?_, herases⟩
  · rw [hwaiting] at hheld
    cases hheld
  · rw [hdeleting] at hid
    cases hid

theorem Follows.next (h : rest.next = some task')
    (hrest : ∀ held ∈ rest.waiting, held ∈ task.waiting) :
    Follows store task store' task' := by
  obtain ⟨hwaiting, hdeleting, herases⟩ := next_waiting h
  refine ⟨fun held hheld => .inl (hrest held (hwaiting held hheld)), fun id hid => ?_, herases _⟩
  rw [hdeleting] at hid
  cases hid

theorem Follows.same (hwaiting : ∀ held ∈ task'.waiting, held ∈ task.waiting)
    (hdeleting : task'.deleting = none) (herases : store'.Erases task') :
    Follows store task store' task' := by
  refine ⟨fun held hheld => .inl (hwaiting held hheld), fun id hid => ?_, herases⟩
  rw [hdeleting] at hid
  cases hid

theorem frees_waiting (sizeBytes : ℕ) : (rest.frees sizeBytes).waiting = rest.waiting := by
  cases rest <;> rfl

/-- A statement adds nothing to what a task is about to delete but what it reads. -/
theorem advance_follows (h : Sound store) (herases : store.Erases task)
    (hs : (advance store now answer task).2 = some task') :
    Follows store task (advance store now answer task).1 task' := by
  cases task with
  | writesPart id number maxBytes =>
    cases answer <;> cases hs
  -- Down to a failed write, a task has no file to delete, before or after.
  | assembles id declared =>
    dsimp only [advance] at hs ⊢
    split at hs <;> cases hs <;> exact .fresh rfl rfl trivial
  | finishes id declared staged =>
    dsimp only [advance] at hs ⊢
    split at hs
    · cases hs
      exact .fresh rfl rfl trivial
    · split at hs <;> cases hs <;> exact .fresh rfl rfl trivial
  | puts id file parts =>
    cases parts with
    | nil =>
      cases hs
      exact .fresh rfl rfl trivial
    | cons part parts =>
      dsimp only [advance] at hs ⊢
      split at hs <;> cases hs <;> exact .fresh rfl rfl trivial
  | clears id file =>
    cases hs
    exact .fresh rfl rfl trivial
  | writesComplete id file =>
    dsimp only [advance] at hs ⊢
    split at hs <;> cases hs <;> exact .fresh rfl rfl trivial
  | readsBack id =>
    dsimp only [advance] at hs ⊢
    split at hs <;> cases hs
    exact .fresh rfl rfl trivial
  | fails id =>
    cases hs
    exact .fresh rfl rfl trivial
  | writesFailed id =>
    dsimp only [advance] at hs ⊢
    split at hs <;> cases hs
  | asksPicture held =>
    dsimp only [advance] at hs ⊢
    split at hs
    · cases hs
    · split at hs
      · cases hs
        exact .fresh rfl rfl trivial
      -- A complete upload goes on to be thrown away, the very file it asked of.
      · next hcomplete =>
        cases hs
        refine .same (fun held hheld => ?_) rfl trivial
        rw [Task.waiting, if_pos (not_not.mp hcomplete)]
        exact hheld
  | throwsAway held =>
    cases hs
    exact .same (fun _ hheld => hheld) rfl trivial
  | releases id rest =>
    cases hs
    exact .same (fun _ hheld => hheld) rfl trivial
  | discards id rest => exact .next hs fun _ hheld => hheld
  | discardsLast id rest =>
    cases hs
    exact .same (fun _ hheld => hheld) rfl trivial
  | forgets id rest => exact .next hs fun _ hheld => hheld
  | asksStore id now rest =>
    cases answer with
    | heard lastReceived =>
      dsimp only [advance] at hs ⊢
      split at hs
      · cases hs
        exact .same (fun _ hheld => hheld) rfl trivial
      · exact .next hs fun _ hheld => hheld
    | _ => exact .next hs fun _ hheld => hheld
  | readsPool target =>
    dsimp only [advance] at hs ⊢
    split at hs <;> cases hs
    exact .fresh rfl rfl trivial
  -- Rows are read here: each of them must be due.
  | readsOldest target excess =>
    have hs :
        (Rest.oldest target excess 0 (oldestFirst (store.chosen fun _ => takeable store))).next =
        some task' := hs
    obtain ⟨hwaiting, hdeleting, hnext⟩ := next_waiting hs
    refine ⟨fun held hheld => .inr ⟨rfl, ?_⟩, fun id hid => ?_, hnext _⟩
    · obtain ⟨e, he, rfl⟩ := mem_oldestFirst (hwaiting held hheld)
      exact due_of_chosen h (fun _ _ _ _ hr => takeable_chosen hr) he
    · rw [hdeleting] at hid
      cases hid
  -- The deletion begins: the file is the one being deleted, and no longer waits.
  | deletes held rest =>
    dsimp only [advance] at hs ⊢
    have hrest (row : Bool) : Follows store (.deletes held rest) (begins store held answer)
        (.deletesCopies held held.copies row rest) := by
      refine ⟨fun other hother => .inl (List.mem_cons_of_mem _ hother),
        fun id hid => .inr ⟨held, rest, rfl, ?_⟩, trivial⟩
      cases hid
      rfl
    split at hs
    · cases hs
      exact hrest true
    · split at hs
      · cases hs
        exact hrest false
      · exact .next hs fun _ hother => List.mem_cons_of_mem _ hother
  | deletesCopies held copies row rest =>
    cases copies with
    | nil =>
      dsimp only [advance] at hs ⊢
      split at hs
      · cases hs
        exact .same (fun _ hheld => hheld) rfl trivial
      · exact .next hs fun _ hheld => hheld
    | cons part copies =>
      cases hs
      exact ⟨fun other hother => .inl hother, fun id hid => .inl hid, trivial⟩
  | deletesRow held rest =>
    refine .next hs fun other hother => ?_
    rw [frees_waiting] at hother
    exact hother
  | checks userId left ids =>
    cases left with
    | nil =>
      cases hs
      exact .fresh rfl rfl trivial
    | cons id left =>
      dsimp only [advance] at hs ⊢
      split at hs <;> cases hs
      exact .fresh rfl rfl trivial
  | checksPicture userId id left ids =>
    dsimp only [advance] at hs ⊢
    split at hs <;> cases hs
    exact .fresh rfl rfl trivial
  | posts ids => cases hs
  | pins messageId pinned => cases hs
  | tombstones messageId =>
    cases hs
    obtain ⟨message, hmessage⟩ := herases
    refine .fresh rfl rfl ⟨{ message with deletedAt := some now, pinnedAt := none }, ?_, rfl⟩
    simp only [advance, Store.tombstone, modify_at, hmessage]
    rfl
  -- The files of a tombstone are read here, and are due because their message is deleted.
  | readsFiles messageId =>
    have hs : (Rest.files ((store.chosen fun _ a =>
      if a.messageId = some messageId ∧ a.state = .complete then some .deleted else none).map
        Prod.snd)).next = some task' := hs
    obtain ⟨hwaiting, hdeleting, hnext⟩ := next_waiting hs
    refine ⟨fun held hheld => .inr ⟨rfl, ?_⟩, fun id hid => ?_, hnext _⟩
    · obtain ⟨e, he, rfl⟩ := List.mem_map.mp (List.mem_of_mem_filter (hwaiting held hheld))
      refine due_of_chosen h (fun id a r _ hr => ?_) he
      obtain ⟨⟨hon, -⟩, hr⟩ := Option.ite_none_right_eq_some.mp hr
      cases hr
      obtain ⟨message, hmessage, hdeleted⟩ := herases
      refine ⟨message, ?_, hdeleted⟩
      rw [Store.message, hon]
      exact hmessage
    · rw [hdeleting] at hid
      cases hid
  | addsPicture id => cases hs
  | removesPicture id =>
    cases hs
    exact .fresh rfl rfl trivial
  | readsPicture id =>
    obtain ⟨a, ha, rfl⟩ := Option.map_eq_some_iff.mp hs
    refine ⟨fun held hheld => .inr ⟨rfl, ?_⟩, fun id hid => (by cases hid), trivial⟩
    cases List.mem_singleton.mp hheld
    exact ⟨h.made id a ha, fun _ _ => trivial⟩

/-- What a request or a pass that begins has read. -/
theorem begin_due {config : Config} {request : Request} (h : Sound store)
    (hb : begin config store request = some task) :
    (∀ held ∈ task.waiting, Due store held) ∧ task.deleting = none ∧ store.Erases task := by
  -- Requests that begin with rows they have just read.
  have hfiles {rows : List Held} (hnext : (Rest.files rows).next = some task)
      (hrows : ∀ held ∈ rows, Due store held) :
      (∀ held ∈ task.waiting, Due store held) ∧ task.deleting = none ∧ store.Erases task := by
    obtain ⟨hwaiting, hdeleting, herases⟩ := next_waiting hnext
    exact ⟨fun held hheld => hrows held (List.mem_of_mem_filter (hwaiting held hheld)), hdeleting,
      herases store⟩
  cases request with
  | putPart id number =>
    obtain ⟨a, -, hb⟩ := Option.bind_eq_some_iff.mp hb
    obtain ⟨-, hb⟩ := Option.ite_none_right_eq_some.mp hb
    obtain ⟨maxBytes, -, rfl⟩ := Option.map_eq_some_iff.mp hb
    exact ⟨fun held hheld => (by cases hheld), rfl, trivial⟩
  | complete id userId =>
    obtain ⟨a, -, hb⟩ := Option.bind_eq_some_iff.mp hb
    obtain ⟨-, hb⟩ := Option.ite_none_right_eq_some.mp hb
    cases hb
    exact ⟨fun held hheld => (by cases hheld), rfl, trivial⟩
  -- A cancelled upload is due while no message has it, which was just asked.
  | cancel id userId =>
    obtain ⟨a, ha, hb⟩ := Option.bind_eq_some_iff.mp hb
    obtain ⟨⟨-, hnone⟩, hb⟩ := Option.ite_none_right_eq_some.mp hb
    cases hb
    refine ⟨fun held hheld => ?_, rfl, trivial⟩
    rw [Task.waiting] at hheld
    split at hheld
    · cases List.mem_singleton.mp hheld
      refine ⟨h.made id a ha, fun b hb => ?_⟩
      cases ha.symm.trans hb
      exact hnone
    · cases hheld
  -- This pass lets go of uploads under way, and holds no file.
  | releaseIdle now =>
    obtain ⟨hwaiting, hdeleting, herases⟩ :=
      next_waiting (show (Rest.idle now _).next = some task from hb)
    exact ⟨fun held hheld => (by cases hwaiting held hheld), hdeleting, herases store⟩
  | releaseFor userId =>
    refine hfiles (show (Rest.files _).next = some task from hb) fun held hheld => ?_
    obtain ⟨e, he, rfl⟩ := List.mem_map.mp hheld
    exact due_of_chosen h (fun _ _ _ _ hr => unsent_chosen hr) he
  | sweep now =>
    refine hfiles (show (Rest.files _).next = some task from hb) fun held hheld => ?_
    obtain ⟨e, he, rfl⟩ := mem_oldestFirst hheld
    exact due_of_chosen h (fun _ _ _ ha hr => expired_chosen h ha hr) he
  -- These choose what to take later, once the pool is read.
  | keepRoom =>
    obtain ⟨-, hb⟩ := Option.ite_none_right_eq_some.mp hb
    cases hb
    exact ⟨fun held hheld => (by cases hheld), rfl, trivial⟩
  | makeRoomFor sizeBytes =>
    obtain ⟨-, hb⟩ := Option.ite_none_right_eq_some.mp hb
    cases hb
    exact ⟨fun held hheld => (by cases hheld), rfl, trivial⟩
  | post userId ids =>
    obtain ⟨-, hb⟩ := Option.ite_none_right_eq_some.mp hb
    cases hb
    exact ⟨fun held hheld => (by cases hheld), rfl, trivial⟩
  | setPin messageId pinned =>
    obtain ⟨message, -, hb⟩ := Option.bind_eq_some_iff.mp hb
    obtain ⟨-, hb⟩ := Option.ite_none_right_eq_some.mp hb
    cases hb
    exact ⟨fun held hheld => (by cases hheld), rfl, trivial⟩
  | delete messageId =>
    obtain ⟨message, hmessage, hb⟩ := Option.bind_eq_some_iff.mp hb
    obtain ⟨-, hb⟩ := Option.ite_none_right_eq_some.mp hb
    cases hb
    exact ⟨fun held hheld => (by cases hheld), rfl, message, hmessage⟩
  | addEmoji id userId =>
    obtain ⟨a, -, hb⟩ := Option.bind_eq_some_iff.mp hb
    obtain ⟨-, hb⟩ := Option.ite_none_right_eq_some.mp hb
    cases hb
    exact ⟨fun held hheld => (by cases hheld), rfl, trivial⟩
  | removeEmoji id =>
    obtain ⟨-, hb⟩ := Option.ite_none_right_eq_some.mp hb
    cases hb
    exact ⟨fun held hheld => (by cases hheld), rfl, trivial⟩

end Waiting

end Linger.Uploads
