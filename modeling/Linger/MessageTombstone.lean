import Linger.MessageRow

/-! What deleting a message leaves of it, and which links stay recorded of its words. -/
namespace Linger.Messages
open FiniteMap StepMachine

variable {parse : List Char → Option Url} {st st' : Server} {row row' : Row} {i : ℕ}
  {task task' : Task}

/-- An edit that is past its check and has its links still to record. -/
def Task.edits : Task → Bool
  | .writes (.edit _) => true
  | .records _ => true
  | _ => false

/-- Words and pins are written on a message that isn't deleted, and the last edit to record
its links, or to fail, leaves those of the words there are. -/
def WritesWell (parse : List Char → Option Url) (st : Server) : Act → Prop
  | .step i _ _ =>
    match st.row, st.tasks[i]? with
    | some row, some (.writes (.edit _)) => row.deletedAt = none
    | some row, some (.writes (.setPin pinned)) => pinned = false ∨ row.deletedAt = none
    | some row, some (.records body) =>
      row.deletedAt.isSome = true ∨ extract parse body = extract parse row.body ∨
        st.others i Task.edits
    | _, _ => True
  | .fails i recorded =>
    match st.row, st.tasks[i]? with
    | some row, some task =>
      task.edits = false ∨ row.deletedAt.isSome = true ∨
        task.leaves parse recorded row = extract parse row.body ∨ st.others i Task.edits
    | _, _ => True
  | _ => True

/-- A tombstone has no words and no pin. -/
def Row.Tombstone (row : Row) : Prop :=
  row.body = [] ∧ row.pinnedAt = none ∧ row.deletedAt.isSome = true

structure Tombs (parse : List Char → Option Url) (st : Server) : Prop where
  tomb : st.dropped = true → ∃ row, st.row = some row ∧ row.Tombstone
  links : ∀ row, st.row = some row → row.poll = none → row.deletedAt = none →
    st.has Task.edits ∨ row.links = extract parse row.body

namespace Tombs

/-- Nothing that either is about changes. -/
theorem same (h : Tombs parse st) (hdropped : st'.dropped = st.dropped) (hrow : st.row = some row)
    (hrow' : st'.row = some row') (hbody : row'.body = row.body)
    (hpinned : row'.pinnedAt = row.pinnedAt) (hdeleted : row'.deletedAt = row.deletedAt)
    (hlinks : row'.links = row.links) (hpoll : row'.poll = none → row.poll = none)
    (hedits : st.has Task.edits → st'.has Task.edits) : Tombs parse st' := by
  refine ⟨fun hd => ?_, fun r hr hp hdel => ?_⟩
  · obtain ⟨r, hr, hbody₀, hpinned₀, hdeleted₀⟩ := h.tomb (hdropped ▸ hd)
    cases hrow.symm.trans hr
    exact ⟨row', hrow', hbody.trans hbody₀, hpinned.trans hpinned₀, hdeleted ▸ hdeleted₀⟩
  · cases hrow'.symm.trans hr
    rw [hlinks, hbody]
    exact (h.links row hrow (hpoll hp) (hdeleted ▸ hdel)).imp hedits id

/-- Only tasks move. -/
theorem moves (h : Tombs parse st) (hdropped : st'.dropped = st.dropped) (hrow : st'.row = st.row)
    (hedits : st.has Task.edits → st'.has Task.edits) : Tombs parse st' :=
  ⟨fun hd => hrow ▸ h.tomb (hdropped ▸ hd),
    fun r hr hp hdel => (h.links r (hrow ▸ hr) hp hdel).imp hedits id⟩

theorem ends (h : Tombs parse st) (hi : st.tasks[i]? = some task) (htask : task.edits = false) :
    Tombs parse (st.ends i) := by
  refine h.moves rfl rfl fun hhas => ?_
  rcases Server.has_split hi hhas with hedits | hothers
  · rw [htask] at hedits
    cases hedits
  · exact hothers

theorem goOn (h : Tombs parse st) (hi : st.tasks[i]? = some task)
    (htask : task.edits = true → task'.edits = true) : Tombs parse (st.goOn i task') :=
  h.moves rfl rfl fun hhas => Server.has_goOn_of hi hhas htask

/-- No write but an edit's, a delete's and a pin's is about either. -/
theorem writes (h : Tombs parse st) (hrow : st.row = some row) (hi : st.tasks[i]? = some task)
    (htask : task.edits = true → task'.edits = true) (hbody : row'.body = row.body)
    (hpinned : row'.pinnedAt = row.pinnedAt) (hdeleted : row'.deletedAt = row.deletedAt)
    (hlinks : row'.links = row.links) (hpoll : row'.poll = none → row.poll = none) :
    Tombs parse (st.writes i row' task') :=
  h.same rfl hrow rfl hbody hpinned hdeleted hlinks hpoll
    fun hhas => Server.has_goOn_of hi hhas htask

theorem write (h : Tombs parse st) (hrow : st.row = some row) {request : Request} {now : ℕ}
    (hi : st.tasks[i]? = some (.writes request)) {allowed : Bool}
    (hok : WritesWell parse st (.step i allowed now)) :
    Tombs parse (write st i now row request) := by
  unfold WritesWell at hok
  simp only [hrow, hi] at hok
  cases request with
  | edit body =>
    have hok : row.deletedAt = none := hok
    refine ⟨fun hd => ?_, fun r hr hp hdel => .inl (Server.has_goOn.mpr (.inl rfl))⟩
    -- the words of a deleted message are not written
    obtain ⟨r, hr, -, -, hdel⟩ := h.tomb hd
    cases hrow.symm.trans hr
    rw [hok] at hdel
    cases hdel
  | delete =>
    refine ⟨fun _ => ⟨_, rfl, rfl, rfl, rfl⟩, fun r hr _ hdel => ?_⟩
    cases hr
    cases hdel
  | setPin pinned =>
    have hok : pinned = false ∨ row.deletedAt = none := hok
    refine ⟨fun hd => ?_, fun r hr hp hdel => ?_⟩
    · obtain ⟨r, hr, hbody, hpin, hdel⟩ := h.tomb hd
      cases hrow.symm.trans hr
      rcases hok with rfl | hnone
      · exact ⟨_, rfl, hbody, rfl, hdel⟩
      · rw [hnone] at hdel
        cases hdel
    · cases hr
      refine (h.links row hrow hp hdel).imp (fun hhas => ?_) id
      exact Server.has_goOn_of hi hhas fun hedits => by cases hedits
  | addReaction userId key =>
    rw [Messages.write]
    split
    · exact h.writes hrow hi (fun he => by cases he) rfl rfl rfl rfl id
    · exact h.ends hi rfl
  | removeReaction userId key =>
    rw [Messages.write]
    split
    · exact h.writes hrow hi (fun he => by cases he) rfl rfl rfl rfl id
    · exact h.ends hi rfl
  | vote userId choices =>
    exact h.writes hrow hi (fun he => by cases he) rfl rfl rfl rfl Option.map_eq_none_iff.mp
  | closePoll =>
    rw [Messages.write]
    split
    · exact h.writes hrow hi (fun he => by cases he) rfl rfl rfl rfl Option.map_eq_none_iff.mp
    · exact h.ends hi rfl

theorem advance (h : Tombs parse st) (hrow : st.row = some row) (hi : st.tasks[i]? = some task)
    {allowed : Bool} {now : ℕ} (hok : WritesWell parse st (.step i allowed now)) :
    Tombs parse (advance parse st i allowed now row task) := by
  cases task with
  | checks request =>
    rw [Messages.advance]
    split
    · exact h.goOn hi fun he => by cases he
    · exact h.ends hi rfl
  | writes request => exact h.write hrow hi hok
  | records body =>
    unfold WritesWell at hok
    simp only [hrow, hi] at hok
    refine ⟨fun hd => ?_, fun r hr hp hdel => ?_⟩
    · obtain ⟨r, hr, htomb⟩ := h.tomb hd
      cases hrow.symm.trans hr
      exact ⟨_, rfl, htomb⟩
    · cases hr
      -- The edit's links are those of the row's words, or another edit is still to record its own.
      rcases hok with hgone | hsame | hothers
      · have hdel : row.deletedAt = none := hdel
        rw [hdel] at hgone
        cases hgone
      · exact .inr hsame
      · exact .inl (Server.has_goOn.mpr (.inr hothers))
  | readsRow created => exact h.goOn hi fun he => by cases he
  | readsReactions created message => exact h.goOn hi fun he => by cases he
  | readsPoll created message => exact h.goOn hi fun he => by cases he
  | tells created message =>
    -- A frame that is heard changes neither the row nor who still records.
    have hhears : Tombs parse (st.hears created message) := by
      unfold Server.hears
      split
      · exact h.moves rfl rfl id
      · exact h
    have hi' : (st.hears created message).tasks[i]? = some (.tells created message) := by
      unfold Server.hears
      split <;> exact hi
    exact hhears.ends hi' rfl
  | tellsDelete =>
    have hheld : Tombs parse { st with held := st.held.map fun held : Message =>
        { held with body := [], deletedAt := held.deletedAt.or (some now) } } := h.moves rfl rfl id
    exact hheld.ends hi rfl
  | readsGroup key => exact h.goOn hi fun he => by cases he
  | tellsGroup group =>
    have hheld : Tombs parse { st with held := st.held.map fun held : Message =>
        { held with reactions := withGroup held.reactions group } } := h.moves rfl rfl id
    exact hheld.ends hi rfl

/-- A request that fails leaves the row but for its links. -/
theorem fails (h : Tombs parse st) (hi : st.tasks[i]? = some task) {recorded : Option ℕ}
    (hok : WritesWell parse st (.fails i recorded)) :
    Tombs parse ((st.cut parse recorded task).ends i) := by
  refine ⟨fun hd => ?_, fun r hr hp hdel => ?_⟩
  · obtain ⟨r, hr, htomb⟩ := h.tomb hd
    exact ⟨_, congrArg (Option.map _) hr, htomb⟩
  · obtain ⟨row, hrow, rfl⟩ := Option.map_eq_some_iff.mp (show st.row.map _ = some r from hr)
    unfold WritesWell at hok
    simp only [hrow, hi] at hok
    have hdel : row.deletedAt = none := hdel
    rcases hok with hnot | hgone | hlinks | hothers
    · -- it was to record nothing, so the links are as they were
      have hleaves : task.leaves parse recorded row = row.links := by
        cases task with
        | records body => cases hnot
        | _ => rfl
      refine (h.links row hrow hp hdel).imp (fun hhas => ?_) fun hsame => hleaves.trans hsame
      refine (Server.has_split hi hhas).resolve_left ?_
      rw [hnot]
      exact Bool.false_ne_true
    · rw [hdel] at hgone
      cases hgone
    · exact .inr hlinks
    · exact .inl hothers

theorem step {act : Act} (h : Tombs parse st) (hok : WritesWell parse st act)
    (hs : step parse st act = some st') : Tombs parse st' := by
  -- A message that is new has the links of its words; a poll has none.
  have hcreate (i : ℕ) (row : Row) (hnone : st.row = none)
      (hlinks : row.poll = none → row.links = extract parse row.body)
      (hb : ({ st with row := some row } : Server).begin i (.readsRow true) = some st') :
      Tombs parse st' := by
    unfold Server.begin at hb
    split at hb
    · cases hb
    · cases hb
      refine ⟨fun hd => ?_, fun r hr hp _ => ?_⟩
      · obtain ⟨r, hr, -⟩ := h.tomb hd
        rw [hnone] at hr
        cases hr
      · cases hr
        exact .inr (hlinks hp)
  cases act with
  | create i body =>
    rw [Messages.step] at hs
    split at hs
    · cases hs
    · next hrow => exact hcreate i _ (Option.not_isSome_iff_eq_none.mp hrow) (fun _ => rfl) hs
  | createPoll i body choices =>
    rw [Messages.step] at hs
    split at hs
    · cases hs
    · next hrow =>
      exact hcreate i _ (Option.not_isSome_iff_eq_none.mp hrow) (fun hp => by cases hp) hs
  | request i request =>
    rw [Messages.step, Server.begin] at hs
    split at hs
    · cases hs
    · next hi =>
      cases hs
      exact h.moves rfl rfl fun hhas =>
        Server.has_begin (Option.not_isSome_iff_eq_none.mp hi) hhas
  | step i allowed now =>
    rw [Messages.step] at hs
    obtain ⟨task, hi, rfl⟩ := Option.map_eq_some_iff.mp hs
    cases hrow : st.row with
    | some row => exact h.advance hrow hi hok
    | none =>
      refine ⟨fun hd => ?_, fun r hr => ?_⟩
      · obtain ⟨r, hr, -⟩ := h.tomb hd
        rw [hrow] at hr
        cases hr
      · rw [show (st.ends i).row = none from hrow] at hr
        cases hr
  | fails i recorded =>
    rw [Messages.step] at hs
    obtain ⟨task, hi, rfl⟩ := Option.map_eq_some_iff.mp hs
    exact h.fails hi hok

end Tombs

/-- In every run that writes well, a message whose delete was written is a tombstone from
then on, and one that isn't deleted has the links of its words recorded whenever no edit
of it is under way. -/
theorem tombstone_stays_and_links_follow {acts : List Act}
    (hm : (machine parse).Meets (WritesWell parse) acts) (hr : (machine parse).run acts = some st) :
    (st.dropped = true → ∃ row, st.row = some row ∧ row.Tombstone) ∧
    ∀ row, st.row = some row → row.poll = none → row.deletedAt = none → ¬ st.has Task.edits →
      row.links = extract parse row.body := by
  have h : Tombs parse st := (machine parse).invariant_of_meets
    ⟨fun hd => (by cases hd), fun row hrow => by cases hrow⟩
    (fun _ _ _ h hok hl => h.step hok hl) hm hr
  refine ⟨h.tomb, fun row hrow hp hdel hnone => ?_⟩
  exact (h.links row hrow hp hdel).resolve_left hnone

instance (parse : List Char → Option Url) (st : Server) (act : Act) :
    Decidable (WritesWell parse st act) := by
  cases act <;> unfold WritesWell <;> dsimp only <;> (try split) <;> infer_instance

/-- Addresses as simple as the ones below. -/
def parsePlain (raw : List Char) : Option Url :=
  let scheme := raw.takeWhile (· ≠ ':')
  let rest := raw.drop (scheme.length + 3)
  let host := rest.takeWhile (· ≠ '/')
  let path := rest.drop host.length
  some ⟨scheme, none, some host,
    scheme ++ "://".toList ++ host ++ if path = [] then ['/'] else path⟩

/-- A message, and two edits of it that one after the other are written and recorded, then
a pin and a delete, and an edit that fails. -/
def editsTwice : List Act :=
  [.create 0 "hi".toList, .request 1 (.edit "https://a.b".toList), .request 2 (.edit "c".toList),
    .step 1 true 5, .step 2 true 6, .step 1 true 7, .step 1 true 8, .step 2 true 9, .step 2 true 10,
    .request 3 (.setPin true), .request 4 .delete, .step 3 true 11, .step 3 true 12,
    .step 4 true 13, .step 4 true 14, .request 5 (.edit "d".toList), .fails 5 none]

theorem tombstone_stays_and_links_follow_editsTwice :
    ∃ st, (machine parsePlain).run editsTwice = some st ∧ st.dropped = true ∧
      ((st.dropped = true → ∃ row, st.row = some row ∧ row.Tombstone) ∧
      ∀ row, st.row = some row → row.poll = none → row.deletedAt = none → ¬ st.has Task.edits →
        row.links = extract parsePlain row.body) :=
  ⟨_, rfl, rfl, @tombstone_stays_and_links_follow parsePlain _ editsTwice (by decide +kernel) rfl⟩

/-- Two checks that both find a message there, and a delete of it between a check and its
write: the tombstone gets words and a pin. Without one, the links of the edit that was
written first are recorded last; or its caller hangs up, and none of its links are. -/
theorem tombstone_revived :
    (∃ st row, (machine parsePlain).run [.create 0 "hi".toList,
        .request 1 (.edit "back".toList), .request 2 (.setPin true), .request 3 .delete,
        .step 1 true 5, .step 2 true 6, .step 3 true 7, .step 3 true 8, .step 1 true 9,
        .step 2 true 10] = some st ∧
      st.dropped = true ∧ st.row = some row ∧ row.body = "back".toList ∧
      row.deletedAt.isSome = true ∧ row.pinnedAt = some 10) ∧
    (∃ st row, (machine parsePlain).run [.create 0 "hi".toList,
        .request 1 (.edit "https://a.b".toList), .request 2 (.edit "c".toList),
        .step 1 true 5, .step 2 true 6, .step 1 true 7, .step 2 true 8, .step 2 true 9,
        .step 1 true 10] = some st ∧
      st.row = some row ∧ row.deletedAt = none ∧ row.poll = none ∧
      (∀ task ∈ vals st.tasks, task.edits = false) ∧ row.body = "c".toList ∧
      row.links = ["https://a.b/".toList]) ∧
    ∃ st row, (machine parsePlain).run [.create 0 "hi".toList,
        .request 1 (.edit "https://a.b".toList), .step 1 true 5, .step 1 true 6,
        .fails 1 none] = some st ∧
      st.row = some row ∧ row.deletedAt = none ∧ row.poll = none ∧
      (∀ task ∈ vals st.tasks, task.edits = false) ∧ row.body = "https://a.b".toList ∧
      row.links = [] :=
  ⟨⟨_, _, rfl, rfl, rfl, rfl, rfl, rfl⟩,
    ⟨_, _, rfl, rfl, rfl, rfl, by decide +kernel, rfl, rfl⟩,
    _, _, rfl, rfl, rfl, rfl, by decide +kernel, rfl, rfl⟩

end Linger.Messages
