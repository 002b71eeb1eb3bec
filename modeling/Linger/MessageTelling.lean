import Linger.PutIn
import Linger.MessageRow
import Linger.MessageTombstone
import Mathlib.Data.List.Find

/-! What the room is told about a message and what the database has, part by part: the last
frame about a part says it as it is, when nobody else is still to tell it. -/
namespace Linger.Messages
open FiniteMap StepMachine

/-- The parts of a message that requests change. -/
inductive Part
  | body
  | deleted
  | pin
  | reactions (key : ReactionKey)
  | votes
  deriving DecidableEq, Repr

/-- One emoji's group of a message. -/
def groupOf (groups : List ReactionGroup) (key : ReactionKey) : Option ReactionGroup :=
  groups.find? fun group => group.key = key

/-- A message says a part as the row has it. -/
def Message.Agrees (message : Message) (row : Row) : Part → Prop
  | .body => message.body = row.body
  | .deleted => message.deletedAt.isSome = row.deletedAt.isSome
  | .pin => message.pinnedAt = row.pinnedAt
  | .reactions key =>
    groupOf message.reactions key = groupOf (hydrateReactions row.reactions) key
  | .votes => message.poll.map Poll.voterIds = row.poll.map fun poll => (hydratePoll poll).voterIds

/-- A request that is certain to tell a part yet. -/
def Task.willTell (part : Part) : Task → Bool
  | .checks _ => false
  | .writes (.edit _) => true
  | .writes .delete => part = .body ∨ part = .deleted
  | .writes (.setPin _) => true
  | .writes (.addReaction _ _) => false
  | .writes (.removeReaction _ _) => false
  | .writes (.vote _ _) => true
  | .writes .closePoll => false
  | .records _ => true
  | .readsRow _ => true
  | .readsReactions _ _ => true
  | .readsPoll _ _ => true
  | .tells _ _ => true
  | .tellsDelete => part = .body ∨ part = .deleted
  | .readsGroup key => part = .reactions key
  | .tellsGroup group => part = .reactions group.key

/-- A message that is told for the first time. -/
def Task.creates : Task → Bool
  | .readsRow created => created
  | .readsReactions created _ => created
  | .readsPoll created _ => created
  | .tells created _ => created
  | _ => false

section Groups
variable {groups : List ReactionGroup} {reactions : List Reaction} {key : ReactionKey}

theorem groupOf_withGroup (group : ReactionGroup) : groupOf (withGroup groups group) key =
    if group.key = key then (if group.count = 0 then none else some group)
    else groupOf groups key := by
  -- Put in the place of its key, if a group of that key is there.
  have hreplace : groupOf (groups.replaceF fun one =>
      if one.key = group.key then some group else none) key =
      if group.key = key then (groupOf groups key).map fun _ => group
      else groupOf groups key := by
    induction groups with
    | nil => simp [groupOf]
    | cons one groups ih =>
      rw [List.replaceF]
      by_cases hone : one.key = group.key
      · rw [if_pos hone]
        by_cases hkey : group.key = key
        · simp [groupOf, hone, hkey]
        · simp [groupOf, hone, hkey]
      · rw [if_neg hone]
        by_cases hkey : group.key = key
        · have hne : one.key ≠ key := hkey ▸ hone
          simpa [groupOf, hne, hkey] using ih
        · by_cases hk : one.key = key
          · simp [groupOf, hk, hkey]
          · simpa [groupOf, hk, hkey] using ih
  -- With nobody left it goes out; otherwise it takes its place or is added at the end.
  unfold withGroup
  by_cases hcount : group.count = 0
  · rw [if_pos hcount]
    by_cases hkey : group.key = key
    · subst hkey
      simp [groupOf, hcount]
    · simp only [hkey, if_false, groupOf, List.find?_filter]
      congr 1
      funext one
      by_cases hone : one.key = key
      · simp [hone, Ne.symm hkey]
      · simp [hone]
  · rw [if_neg hcount]
    split
    · next hany =>
      rw [hreplace]
      by_cases hkey : group.key = key
      · subst hkey
        obtain ⟨one, hmem, hone⟩ := List.any_eq_true.mp hany
        have hsome : (groupOf groups group.key).isSome = true :=
          List.find?_isSome.mpr ⟨one, hmem, hone⟩
        obtain ⟨found, hfound⟩ := Option.isSome_iff_exists.mp hsome
        simp [hfound]
      · simp [hkey]
    · next hany =>
      have hnone : groupOf groups group.key = none := by
        simpa [groupOf] using hany
      by_cases hkey : group.key = key
      · subst hkey
        unfold groupOf at hnone ⊢
        simp [List.find?_append, hnone]
      · simp [groupOf, List.find?_append, hkey]

theorem groupOf_addToGroups (reaction : Reaction) :
    groupOf (addToGroups groups reaction) key =
      if reaction.key = key then
        some ((groupOf groups key).elim ⟨key, 1, [reaction.userId]⟩ fun group =>
          { group with count := group.count + 1, userIds := group.userIds ++ [reaction.userId] })
      else groupOf groups key := by
  unfold addToGroups
  split
  · next hany =>
    have hmap : groupOf (groups.map fun group => if group.key = reaction.key then
          { group with count := group.count + 1, userIds := group.userIds ++ [reaction.userId] }
        else group) key =
        (groupOf groups key).map fun group => if group.key = reaction.key then
          { group with count := group.count + 1, userIds := group.userIds ++ [reaction.userId] }
        else group := by
      rw [groupOf, groupOf, List.find?_map]
      congr 2
      funext group
      by_cases hg : group.key = reaction.key <;> simp [hg]
    rw [hmap]
    cases hgroup : groupOf groups key with
    | none =>
      have hne : reaction.key ≠ key := by
        rintro rfl
        obtain ⟨group, hmem, hkey⟩ := List.any_eq_true.mp hany
        exact List.find?_eq_none.mp hgroup group hmem hkey
      simp [hne]
    | some group =>
      have hkey : group.key = key := by simpa using List.find?_some hgroup
      by_cases hr : reaction.key = key
      · simp [hkey, hr]
      · simp [hkey, hr, Ne.symm hr]
  · next hany =>
    by_cases hr : reaction.key = key
    · have hnone : groupOf groups key = none := by
        subst hr
        simpa [groupOf] using hany
      unfold groupOf at hnone ⊢
      simp [List.find?_append, hnone, hr]
    · simp [groupOf, List.find?_append, hr]

/-- One emoji's group holds everybody who left it, in the order they did. -/
theorem groupOf_hydrateReactions : groupOf (hydrateReactions reactions) key =
    if (reactionGroup reactions key).count = 0 then none
    else some (reactionGroup reactions key) := by
  induction reactions using List.reverseRecOn with
  | nil => rfl
  | append_singleton reactions reaction ih =>
    have hsnoc : hydrateReactions (reactions ++ [reaction]) =
        addToGroups (hydrateReactions reactions) reaction := List.foldl_concat ..
    rw [hsnoc, groupOf_addToGroups, ih]
    by_cases hr : reaction.key = key
    · rw [if_pos hr]
      by_cases hcount : (reactionGroup reactions key).count = 0
      · have hnil : reactions.filter (fun r => r.key = key) = [] := by
          simpa [reactionGroup] using hcount
        simp [reactionGroup, List.filter_append, hnil, hr]
      · simp only [hcount, if_false, Option.elim_some]
        simp [reactionGroup, List.filter_append, hr]
    · rw [if_neg hr]
      have hsame : reactionGroup (reactions ++ [reaction]) key = reactionGroup reactions key := by
        simp [reactionGroup, List.filter_append, hr]
      rw [hsame]

/-- An emoji's group is as it was when nobody's reaction with it came or went. -/
theorem groupOf_hydrate_congr {reactions' : List Reaction}
    (h : (reactions'.filter fun r => r.key = key) = reactions.filter fun r => r.key = key) :
    groupOf (hydrateReactions reactions') key = groupOf (hydrateReactions reactions) key := by
  have hgroup : reactionGroup reactions' key = reactionGroup reactions key := by
    simp [reactionGroup, h]
  rw [groupOf_hydrateReactions, groupOf_hydrateReactions, hgroup]

theorem filter_insertReaction {reaction : Reaction} (h : reaction.key ≠ key) :
    ((insertReaction reactions reaction).filter fun r => r.key = key) =
      reactions.filter fun r => r.key = key := by
  conv_rhs => rw [← List.takeWhile_append_dropWhile (p := fun r : Reaction =>
    decide (r.createdAt ≤ reaction.createdAt)) (l := reactions)]
  simp only [insertReaction, List.filter_append, List.filter_cons, h, decide_false,
    Bool.false_eq_true, if_false]

end Groups

/-- The parts there is anything to say of. -/
def Message.parts (message : Message) (row : Row) : List Part :=
  [.body, .deleted, .pin, .votes] ++
    (message.reactions.map ReactionGroup.key ++ row.reactions.map Reaction.key).map .reactions

theorem Message.agrees_of_parts {message : Message} {row : Row} {part : Part}
    (h : part ∉ message.parts row) : message.Agrees row part := by
  have hrow (key : ReactionKey) (hkey : key ∉ row.reactions.map Reaction.key) :
      groupOf (hydrateReactions row.reactions) key = none := by
    have hnil : row.reactions.filter (fun r => r.key = key) = [] := by
      apply List.filter_eq_nil_iff.mpr
      intro r hr he
      exact hkey (of_decide_eq_true he ▸ List.mem_map_of_mem hr)
    rw [groupOf_hydrateReactions]
    simp [reactionGroup, hnil]
  cases part with
  | reactions key =>
    simp only [parts, List.mem_append, List.mem_map, Part.reactions.injEq, exists_eq_right,
      not_or] at h
    have hmessage : groupOf message.reactions key = none := by
      apply List.find?_eq_none.mpr
      intro group hgroup he
      exact h.2.1 ⟨group, hgroup, of_decide_eq_true he⟩
    have hnone := hrow key fun hkey => h.2.2 (List.mem_map.mp hkey)
    exact hmessage.trans hnone.symm
  | body | deleted | pin | votes => exact absurd (by simp [parts]) h

def Task.tellsDelete? (task : Task) : Bool := task = .tellsDelete

/-- What is told is what the database has by then, part by part, unless somebody else is
still to tell that part; a pin isn't deleted that nobody is to tell of; and who fails was to
tell nothing that hasn't been told, or somebody else is to tell it. -/
def TellsTruth (st : Server) : Act → Prop
  | .step i _ _ =>
    match st.row, st.tasks[i]? with
    | some row, some (.writes .delete) =>
      row.pinnedAt = none ∨ st.others i (Task.willTell .pin)
    | some row, some (.tells _ message) =>
      ∀ part ∈ message.parts row, message.Agrees row part ∨ st.others i (Task.willTell part)
    | some row, some .tellsDelete => row.body = [] ∨ st.others i (Task.willTell .body)
    | some row, some (.tellsGroup group) =>
      group = reactionGroup row.reactions group.key ∨
        st.others i (Task.willTell (.reactions group.key))
    | _, _ => True
  | .fails i _ =>
    match st.row, st.held, st.tasks[i]? with
    | some row, some message, some task =>
      ∀ part ∈ message.parts row, task.willTell part = true →
        message.Agrees row part ∨ st.others i (Task.willTell part)
    | some _, none, some task => task.creates = false
    | _, _, _ => True
  | _ => True

/-- Each part is told as it is, or somebody will tell it. -/
structure Telling (st : Server) : Prop where
  first : st.row.isSome = true → st.held = none → st.has Task.creates
  told : ∀ row, st.row = some row → ∀ part, st.has (Task.willTell part) ∨
    ∃ message, st.held = some message ∧ message.Agrees row part
  gone : st.has Task.tellsDelete? → ∃ row, st.row = some row ∧ row.deletedAt.isSome = true

section Steps
variable {st : Server} {row row' : Row} {i : ℕ} {task task' : Task} {part : Part}

/-- Who tells a message for the first time tells every part of it. -/
theorem willTell_of_creates (h : task.creates = true) (part : Part) :
    task.willTell part = true := by
  cases task with
  | readsRow | readsReactions | readsPoll | tells => rfl
  | checks | writes | records | tellsDelete | readsGroup | tellsGroup => cases h

theorem others_willTell_of_creates (h : st.others i Task.creates) (part : Part) :
    st.others i (Task.willTell part) := by
  obtain ⟨j, task, hne, hj, hc⟩ := Server.others_iff.mp h
  exact Server.others_iff.mpr ⟨j, task, hne, hj, willTell_of_creates hc part⟩

namespace Telling

/-- A request writes and goes on: whatever it changes it will tell, or somebody else. -/
theorem writes (h : Telling st) (hrow : st.row = some row) (hi : st.tasks[i]? = some task)
    (hwill : ∀ part, task.willTell part = true → task'.willTell part = true)
    (hcreates : task.creates = true → task'.creates = true)
    (hdeleted : row.deletedAt.isSome = true → row'.deletedAt.isSome = true)
    (hgone : task' = .tellsDelete → row'.deletedAt.isSome = true)
    (hparts : ∀ part, task'.willTell part = true ∨ st.others i (Task.willTell part) ∨
      ∀ message : Message, message.Agrees row part → message.Agrees row' part) :
    Telling (st.writes i row' task') := by
  refine ⟨fun _ hheld => ?_, fun r hr part => ?_, fun hhas => ⟨row', rfl, ?_⟩⟩
  · have hsome : st.row.isSome = true := by rw [hrow]; rfl
    exact Server.has_goOn_of hi (h.first hsome hheld) hcreates
  · cases hr
    rcases hparts part with htask | hothers | hagrees
    · exact .inl (Server.has_goOn.mpr (.inl htask))
    · exact .inl (Server.has_goOn.mpr (.inr hothers))
    · refine (h.told row hrow part).imp (fun hhas => ?_) fun ⟨message, hheld, hm⟩ =>
        ⟨message, hheld, hagrees message hm⟩
      exact Server.has_goOn_of hi hhas (hwill part)
  · rcases Server.has_goOn.mp hhas with htask | hothers
    · exact hgone (of_decide_eq_true htask)
    · obtain ⟨r, hr, hdel⟩ := h.gone (Server.has_of_others hothers)
      cases hrow.symm.trans hr
      exact hdeleted hdel

theorem goOn (h : Telling st) (hrow : st.row = some row) (hi : st.tasks[i]? = some task)
    (hwill : ∀ part, task.willTell part = true → task'.willTell part = true)
    (hcreates : task.creates = true → task'.creates = true) (hne : task' ≠ .tellsDelete) :
    Telling (st.goOn i task') := by
  have hsame : st.writes i row task' = st.goOn i task' := by
    unfold Server.writes Server.goOn
    rw [← hrow]
  rw [← hsame]
  exact h.writes hrow hi hwill hcreates id (fun he => absurd he hne)
    fun part => .inr (.inr fun _ => id)

/-- A request ends that has nothing to tell. -/
theorem ends (h : Telling st) (hi : st.tasks[i]? = some task)
    (hwill : ∀ part, task.willTell part = false) : Telling (st.ends i) := by
  refine ⟨fun hrow hheld => ?_, fun r hr part => ?_, fun hhas => ?_⟩
  · rcases Server.has_split hi (h.first hrow hheld) with hcreates | hothers
    · have htrue := willTell_of_creates hcreates .body
      rw [hwill] at htrue
      cases htrue
    · exact hothers
  · refine (h.told r hr part).imp (fun hhas => ?_) id
    rcases Server.has_split hi hhas with htrue | hothers
    · rw [hwill] at htrue
      cases htrue
    · exact hothers
  · exact h.gone (Server.has_of_others (Server.has_ends.mp hhas))

/-- A request tells the room: `held'` is what a client that held the message holds now. -/
theorem publishes (h : Telling st) (hrow : st.row = some row) (hi : st.tasks[i]? = some task)
    (held' : Message → Message) (hcreates : task.creates = false)
    (hparts : ∀ part message, st.held = some message →
      (task.willTell part = false ∧ (message.Agrees row part → (held' message).Agrees row part)) ∨
      st.others i (Task.willTell part) ∨ (held' message).Agrees row part) :
    Telling (({ st with held := st.held.map held' } : Server).ends i) := by
  have hcreated (hc : st.has Task.creates) : st.others i Task.creates := by
    refine (Server.has_split hi hc).resolve_left ?_
    rw [hcreates]
    exact Bool.false_ne_true
  refine ⟨fun hr hheld => ?_, fun r hr part => ?_, fun hhas => ?_⟩
  · exact hcreated (h.first hr (Option.map_eq_none_iff.mp hheld))
  · cases hrow.symm.trans hr
    rcases Option.eq_none_or_eq_some st.held with hheld | ⟨message, hheld⟩
    · have hsome : st.row.isSome = true := by rw [hrow]; rfl
      exact .inl (others_willTell_of_creates (hcreated (h.first hsome hheld)) part)
    · rcases hparts part message hheld with ⟨hnot, hkeeps⟩ | hothers | hagrees
      · rcases h.told row hrow part with hhas | ⟨m, hm, ha⟩
        · refine .inl ((Server.has_split hi hhas).resolve_left ?_)
          rw [hnot]
          exact Bool.false_ne_true
        · cases hheld.symm.trans hm
          exact .inr ⟨held' message, congrArg (Option.map held') hheld, hkeeps ha⟩
      · exact .inl hothers
      · exact .inr ⟨held' message, congrArg (Option.map held') hheld, hagrees⟩
  · exact h.gone (Server.has_of_others (Server.has_ends.mp hhas))

/-- A message as it was read is told: a client holds it as it is, when it held the one
before or this is the first. -/
theorem hears (h : Telling st) (hrow : st.row = some row) {created : Bool} {message : Message}
    (hi : st.tasks[i]? = some (.tells created message))
    (hok : ∀ part ∈ message.parts row, message.Agrees row part ∨ st.others i (Task.willTell part)) :
    Telling ((st.hears created message).ends i) := by
  have hsome : st.row.isSome = true := by rw [hrow]; rfl
  unfold Server.hears
  split
  · refine ⟨fun _ hheld => (by cases hheld), fun r hr part => ?_, fun hhas => ?_⟩
    · cases hrow.symm.trans hr
      by_cases hpart : part ∈ message.parts row
      · exact (hok part hpart).symm.imp id fun hm => ⟨message, rfl, hm⟩
      · exact .inr ⟨message, rfl, Message.agrees_of_parts hpart⟩
    · exact h.gone (Server.has_of_others (Server.has_ends.mp hhas))
  · next hnot =>
    simp only [Bool.or_eq_true, not_or, Bool.not_eq_true, Option.isSome_eq_false_iff,
      Option.isNone_iff_eq_none] at hnot
    -- a client that dropped it waits for the frame that tells it first
    have hcreates : st.others i Task.creates := by
      refine (Server.has_split hi (h.first hsome hnot.2)).resolve_left fun htrue => ?_
      have hcreated : created = true := htrue
      rw [hnot.1] at hcreated
      cases hcreated
    exact ⟨fun _ _ => hcreates, fun _ _ part => .inl (others_willTell_of_creates hcreates part),
      fun hhas => h.gone (Server.has_of_others (Server.has_ends.mp hhas))⟩

/-- Somebody's reaction came or went: that emoji's group will be told, and no other part
changed. -/
theorem reacts (h : Telling st) (hrow : st.row = some row) (hi : st.tasks[i]? = some task)
    (hwill : ∀ part, task.willTell part = false) {key : ReactionKey} {reactions : List Reaction}
    (hothers : ∀ other, other ≠ key → (reactions.filter fun r => r.key = other) =
      row.reactions.filter fun r => r.key = other) :
    Telling (st.writes i { row with reactions := reactions } (.readsGroup key)) := by
  refine h.writes hrow hi (fun part htrue => ?_) (fun htrue => ?_) id (fun he => by cases he)
    fun part => ?_
  · rw [hwill part] at htrue
    cases htrue
  · have hbody := willTell_of_creates htrue .body
    rw [hwill .body] at hbody
    cases hbody
  · cases part with
    | reactions other =>
      by_cases hkey : other = key
      · exact .inl (decide_eq_true (congrArg Part.reactions hkey))
      · refine .inr (.inr fun message hm => ?_)
        exact hm.trans (groupOf_hydrate_congr (hothers other hkey)).symm
    | body | deleted | pin | votes => exact .inr (.inr fun _ => id)

theorem write (h : Telling st) (hrow : st.row = some row) {request : Request} {now : ℕ}
    (hi : st.tasks[i]? = some (.writes request)) {allowed : Bool}
    (hok : TellsTruth st (.step i allowed now)) : Telling (write st i now row request) := by
  unfold TellsTruth at hok
  simp only [hrow, hi] at hok
  cases request with
  | edit body =>
    exact h.writes hrow hi (fun _ _ => rfl) id id (fun he => by cases he) fun _ => .inl rfl
  | delete =>
    -- A tombstone's frame does not tell the pin, so the pin must be off or be told by another.
    have hok : row.pinnedAt = none ∨ st.others i (Task.willTell .pin) := hok
    have hdropped : Telling { st with dropped := true } := ⟨h.first, h.told, h.gone⟩
    refine hdropped.writes hrow hi (fun _ => id) id (fun _ => rfl) (fun _ => rfl) fun part => ?_
    cases part with
    | body | deleted => exact .inl rfl
    | pin =>
      rcases hok with hnone | hothers
      · exact .inr (.inr fun message hm => hm.trans hnone)
      · exact .inr (.inl hothers)
    | reactions key => exact .inr (.inr fun _ => id)
    | votes => exact .inr (.inr fun _ => id)
  | setPin pinned =>
    exact h.writes hrow hi (fun _ _ => rfl) (fun he => by cases he) id (fun he => by cases he)
      fun _ => .inl rfl
  | addReaction userId key =>
    rw [Messages.write]
    split
    -- the row has the reaction now, and only its own group has changed
    · exact h.reacts hrow hi (fun _ => rfl) fun other hne =>
        filter_insertReaction (Ne.symm hne)
    · exact h.ends hi fun _ => rfl
  | removeReaction userId key =>
    rw [Messages.write]
    split
    · refine h.reacts hrow hi (fun _ => rfl) fun other hne => ?_
      rw [List.filter_filter]
      apply List.filter_congr
      intro r _
      by_cases hkey : r.key = other
      · simp [hkey, hne]
      · simp [hkey]
    -- it was not there, so nothing is left to tell
    · exact h.ends hi fun _ => rfl
  | vote userId choices =>
    exact h.writes hrow hi (fun _ _ => rfl) (fun he => by cases he) id (fun he => by cases he)
      fun _ => .inl rfl
  | closePoll =>
    rw [Messages.write]
    split
    · exact h.writes hrow hi (fun _ _ => rfl) (fun he => by cases he) id (fun he => by cases he)
        fun _ => .inl rfl
    · exact h.ends hi fun _ => rfl

theorem advance {parse : List Char → Option Url} (h : Telling st) (hrow : st.row = some row)
    (hi : st.tasks[i]? = some task) {allowed : Bool} {now : ℕ}
    (hok : TellsTruth st (.step i allowed now)) :
    Telling (advance parse st i allowed now row task) := by
  have hok' := hok
  unfold TellsTruth at hok'
  simp only [hrow, hi] at hok'
  cases task with
  | checks request =>
    rw [Messages.advance]
    split
    · exact h.goOn hrow hi (fun _ he => by cases he) (fun he => by cases he) fun he => by cases he
    · exact h.ends hi fun _ => rfl
  | writes request => exact h.write hrow hi hok
  | records body =>
    exact h.writes hrow hi (fun _ _ => rfl) (fun he => by cases he) id (fun he => by cases he)
      fun _ => .inl rfl
  | readsRow created => exact h.goOn hrow hi (fun _ => id) id fun he => by cases he
  | readsReactions created message => exact h.goOn hrow hi (fun _ => id) id fun he => by cases he
  | readsPoll created message => exact h.goOn hrow hi (fun _ => id) id fun he => by cases he
  | tells created message => exact h.hears hrow hi hok'
  | tellsDelete =>
    refine h.publishes hrow hi _ rfl fun part message hheld => ?_
    cases part with
    | body => exact .inr ((Or.symm hok').imp id fun hbody => Eq.symm hbody)
    | deleted =>
      -- it is told after it was written
      obtain ⟨r, hr, hdel⟩ := h.gone (Server.has_iff.mpr ⟨i, _, hi, rfl⟩)
      cases hrow.symm.trans hr
      refine .inr (.inr ?_)
      rw [Message.Agrees, hdel]
      cases message.deletedAt <;> rfl
    | pin => exact .inl ⟨rfl, id⟩
    | reactions key => exact .inl ⟨rfl, id⟩
    | votes => exact .inl ⟨rfl, id⟩
  | readsGroup key =>
    exact h.goOn hrow hi (fun _ => id) (fun he => by cases he) fun he => by cases he
  | tellsGroup group =>
    refine h.publishes hrow hi _ rfl fun part message hheld => ?_
    cases part with
    | reactions key =>
      by_cases hkey : group.key = key
      · subst hkey
        refine .inr (hok'.symm.imp id fun hgroup => ?_)
        rw [Message.Agrees, groupOf_withGroup, if_pos rfl, groupOf_hydrateReactions, ← hgroup]
      · refine .inl ⟨decide_eq_false fun he => hkey (Part.reactions.inj he).symm, fun hm => ?_⟩
        rw [Message.Agrees, groupOf_withGroup, if_neg hkey]
        exact hm
    | body | deleted | pin | votes => exact .inl ⟨rfl, id⟩

/-- A request fails that was to tell nothing new. -/
theorem fails {parse : List Char → Option Url} {recorded : Option ℕ} (h : Telling st)
    (hi : st.tasks[i]? = some task) (hok : TellsTruth st (.fails i recorded)) :
    Telling ((st.cut parse recorded task).ends i) := by
  unfold TellsTruth at hok
  have hcreates (hsome : st.row.isSome = true) (hheld : st.held = none) :
      st.others i Task.creates := by
    obtain ⟨row, hrow⟩ := Option.isSome_iff_exists.mp hsome
    simp only [hrow, hheld, hi] at hok
    refine (Server.has_split hi (h.first hsome hheld)).resolve_left ?_
    rw [hok]
    exact Bool.false_ne_true
  refine ⟨fun hr hheld => hcreates ((Option.isSome_map).symm.trans hr) hheld, fun r hr part => ?_,
    fun hhas => ?_⟩
  · obtain ⟨row, hrow, rfl⟩ := Option.map_eq_some_iff.mp (show st.row.map _ = some r from hr)
    cases hheld : st.held with
    | none =>
      have hsome : st.row.isSome = true := by rw [hrow]; rfl
      exact .inl (others_willTell_of_creates (hcreates hsome hheld) part)
    | some message =>
      simp only [hrow, hheld, hi] at hok
      have hlinks (hm : message.Agrees row part) :
          message.Agrees { row with links := task.leaves parse recorded row } part := by
        cases part <;> exact hm
      by_cases hpart : part ∈ message.parts row
      · rcases h.told row hrow part with hhas | ⟨m, hm, ha⟩
        · rcases Server.has_split hi hhas with hwill | hothers
          · exact (hok part hpart hwill).symm.imp id fun hm => ⟨message, hheld, hlinks hm⟩
          · exact .inl hothers
        · cases hheld.symm.trans hm
          exact .inr ⟨message, hheld, hlinks ha⟩
      · exact .inr ⟨message, hheld, hlinks (Message.agrees_of_parts hpart)⟩
  · obtain ⟨row, hrow, hdel⟩ := h.gone (Server.has_of_others (Server.has_ends.mp hhas))
    exact ⟨_, congrArg (Option.map _) hrow, hdel⟩

theorem step {parse : List Char → Option Url} {st' : Server} {act : Act} (h : Telling st)
    (hok : TellsTruth st act) (hs : step parse st act = some st') : Telling st' := by
  -- A message that is new has its row and a request that will tell all of it.
  have hcreate (i : ℕ) (row : Row) (hnone : st.row = none)
      (hb : ({ st with row := some row } : Server).begin i (.readsRow true) = some st') :
      Telling st' := by
    unfold Server.begin at hb
    split at hb
    · cases hb
    · cases hb
      refine ⟨fun _ _ => Server.has_goOn.mpr (.inl rfl),
        fun _ _ part => .inl (Server.has_goOn.mpr (.inl rfl)), fun hhas => ?_⟩
      rcases Server.has_goOn.mp hhas with he | hothers
      · cases he
      · obtain ⟨r, hr, -⟩ := h.gone (Server.has_of_others hothers)
        rw [hnone] at hr
        cases hr
  cases act with
  | create i body =>
    rw [Messages.step] at hs
    split at hs
    · cases hs
    · next hrow => exact hcreate i _ (Option.not_isSome_iff_eq_none.mp hrow) hs
  | createPoll i body choices =>
    rw [Messages.step] at hs
    split at hs
    · cases hs
    · next hrow => exact hcreate i _ (Option.not_isSome_iff_eq_none.mp hrow) hs
  | request i request =>
    rw [Messages.step, Server.begin] at hs
    split at hs
    · cases hs
    · next hi =>
      cases hs
      -- A request that begins takes the place of none, so what will be told still is.
      have hnone := Option.not_isSome_iff_eq_none.mp hi
      refine ⟨fun hr hheld => Server.has_begin hnone (h.first hr hheld),
        fun r hr part => (h.told r hr part).imp (Server.has_begin hnone) id, fun hhas => ?_⟩
      rcases Server.has_goOn.mp hhas with he | hothers
      · cases he
      · exact h.gone (Server.has_of_others hothers)
  | step i allowed now =>
    rw [Messages.step] at hs
    obtain ⟨task, hi, rfl⟩ := Option.map_eq_some_iff.mp hs
    cases hrow : st.row with
    | some row => exact h.advance hrow hi hok
    | none =>
      -- Without a row there is nothing to tell.
      have hends : (st.ends i).row = none := hrow
      refine ⟨fun hr => ?_, fun r hr => ?_, fun hhas => ?_⟩
      · rw [hends] at hr
        cases hr
      · rw [hends] at hr
        cases hr
      · exact h.gone (Server.has_of_others (Server.has_ends.mp hhas))
  | fails i recorded =>
    rw [Messages.step] at hs
    obtain ⟨task, hi, rfl⟩ := Option.map_eq_some_iff.mp hs
    exact h.fails hi hok

end Telling

end Steps

/-- In every run that tells the truth, when all requests have finished, whoever heard each
frame about the message in order holds it as the database does. -/
theorem last_frame_tells_truth {parse : List Char → Option Url} {acts : List Act} {st : Server}
    (hm : (machine parse).Meets TellsTruth acts) (hr : (machine parse).run acts = some st)
    {row : Row} (hrow : st.row = some row) (hnone : vals st.tasks = []) :
    ∃ message, st.held = some message ∧ ∀ part, message.Agrees row part := by
  have h : Telling st := (machine parse).invariant_of_meets
    ⟨fun he => (by cases he), fun r he => (by cases he),
      fun ⟨task, hmem, _⟩ => by cases hmem⟩
    (fun _ _ _ h hok hl => h.step hok hl) hm hr
  have hidle (p : Task → Bool) : ¬ st.has p := by
    rintro ⟨task, hmem, -⟩
    rw [hnone] at hmem
    cases hmem
  obtain ⟨message, hheld, -⟩ := (h.told row hrow .body).resolve_left (hidle _)
  refine ⟨message, hheld, fun part => ?_⟩
  obtain ⟨m, hm, hagrees⟩ := (h.told row hrow part).resolve_left (hidle _)
  cases hheld.symm.trans hm
  exact hagrees

instance (message : Message) (row : Row) (part : Part) : Decidable (message.Agrees row part) := by
  cases part <;> unfold Message.Agrees <;> infer_instance

instance (st : Server) (act : Act) : Decidable (TellsTruth st act) := by
  refine Act.casesOn act ?_ ?_ ?_ ?_ ?_ <;> intros <;> unfold TellsTruth <;> dsimp only <;>
    (try refine putIn st.tasks fun tasks => ?_) <;>
    (try refine putIn st.row fun row => ?_) <;> (try split) <;> infer_instance

/-- A poll that two people vote on, the one who voted last telling it last, then a reaction
that comes and goes, and a closing that fails before it writes. -/
def votesTwice : List Act :=
  [.createPoll 0 "?".toList 2, .step 0 true 1, .step 0 true 1, .step 0 true 1, .step 0 true 1,
    .request 1 (.vote 7 [0]), .request 2 (.vote 8 [1]), .step 1 true 2, .step 2 true 2,
    .step 1 true 3, .step 1 true 3, .step 1 true 3, .step 1 true 3, .step 2 true 4, .step 1 true 5,
    .step 2 true 5, .step 2 true 5, .step 2 true 5, .step 2 true 5,
    .request 3 (.addReaction 7 1), .step 3 true 6, .step 3 true 7, .step 3 true 8, .step 3 true 9,
    .request 4 (.removeReaction 7 1), .step 4 true 10, .step 4 true 11, .step 4 true 12,
    .step 4 true 13, .request 5 .closePoll, .step 5 true 14, .fails 5 none]

theorem last_frame_tells_truth_votesTwice :
    ∃ st row, (machine parsePlain).run votesTwice = some st ∧ st.row = some row ∧
      (row.poll.map hydratePoll).map Poll.voterIds = some [[7], [8]] ∧
      ∃ message, st.held = some message ∧ ∀ part, message.Agrees row part :=
  ⟨_, _, rfl, rfl, rfl, @last_frame_tells_truth parsePlain votesTwice _ (by decide +kernel) rfl _
    rfl rfl⟩

/-- The first to vote reads the poll before the second does and tells it after: the second
vote stays untold. A pinned message that is deleted stays pinned for whoever held it. And an
edit whose caller hangs up once it is written is never told. -/
theorem vote_untold :
    (∃ st row message, (machine parsePlain).run [.createPoll 0 "?".toList 2, .step 0 true 1,
        .step 0 true 1, .step 0 true 1, .step 0 true 1, .request 1 (.vote 7 [0]),
        .request 2 (.vote 8 [1]), .step 1 true 2, .step 2 true 2, .step 1 true 3, .step 1 true 3,
        .step 1 true 3, .step 1 true 3, .step 2 true 4, .step 2 true 5, .step 2 true 5,
        .step 2 true 5, .step 2 true 5, .step 1 true 6] = some st ∧
      st.row = some row ∧ vals st.tasks = [] ∧ st.held = some message ∧
      (row.poll.map hydratePoll).map Poll.voterIds = some [[7], [8]] ∧
      message.poll.map Poll.voterIds = some [[7], []]) ∧
    (∃ st row message, (machine parsePlain).run [.create 0 "hi".toList, .step 0 true 1,
        .step 0 true 1, .step 0 true 1, .step 0 true 1, .request 1 (.setPin true), .step 1 true 2,
        .step 1 true 3, .step 1 true 4, .step 1 true 4, .step 1 true 4, .step 1 true 4,
        .request 2 .delete, .step 2 true 5, .step 2 true 6, .step 2 true 7] = some st ∧
      st.row = some row ∧ vals st.tasks = [] ∧ st.held = some message ∧
      row.pinnedAt = none ∧ message.pinnedAt = some 3) ∧
    ∃ st row message, (machine parsePlain).run [.create 0 "hi".toList, .step 0 true 1,
        .step 0 true 1, .step 0 true 1, .step 0 true 1, .request 1 (.edit "back".toList),
        .step 1 true 2, .step 1 true 3, .fails 1 none] = some st ∧
      st.row = some row ∧ vals st.tasks = [] ∧ st.held = some message ∧
      row.body = "back".toList ∧ message.body = "hi".toList :=
  ⟨⟨_, _, _, rfl, rfl, rfl, rfl, rfl, rfl⟩, ⟨_, _, _, rfl, rfl, rfl, rfl, rfl, rfl⟩,
    _, _, _, rfl, rfl, rfl, rfl, rfl, rfl⟩

end Linger.Messages
