import Linger.MessageTelling
import Linger.HistoryKeeps

/-! What a frame says of a message, part by part, what it makes of the messages that are held,
and which change of a message it is the word of. -/
namespace Linger.History
open FiniteMap TaskPool
open Linger.Messages (Request ReactionGroup ReactionKey Row Part groupOf hydrateReactions
  reactionGroup withGroup groupOf_withGroup groupOf_hydrateReactions groupOf_hydrate_congr
  filter_insertReaction)

/-- A message that says nothing. -/
def blank : Messages.Message := ⟨[], none, none, none, [], none⟩

/-- What a frame makes of a message, as far as it tells of it. -/
def Frame.word : Frame → Messages.Message
  | .create message => message.message
  | .update message => message.message
  | .delete _ => tombstone 0 blank
  | .reaction _ group => regroup group blank

def Frame.tells (id : MessageId) (part : Part) : Frame → Bool
  | .create message => message.id = id
  | .update message => message.id = id
  | .delete other => other = id && (part = .body || part = .deleted)
  | .reaction other group => other = id && part = .reactions group.key

/-- A reaction that is shown already, or is to be taken back. -/
def Flight.shows (id : MessageId) (part : Part) (flight : Flight) : Bool :=
  match flight.fetch with
  | .reacts other _ before => other = id && part = .reactions before.key
  | .refused other before => other = id && part = .reactions before.key
  | .page _ _ _ => false
  | .window _ _ _ _ => false
  | .sent _ => false
  | .changed _ => false
  | .deleted _ => false

/-- A frame on its way tells of it. -/
def State.framed (st : State) (id : MessageId) (part : Part) : Prop :=
  ∃ frame ∈ st.frames, frame.tells id part = true

/-- The part is still to be told, by a frame or once a reaction is answered. -/
def State.willTell (st : State) (id : MessageId) (part : Part) : Prop :=
  st.framed id part ∨ Has st.flights (Flight.shows id part)

/-- So it is whatever this flight brings. -/
def State.willTellBut (st : State) (i : ℕ) (id : MessageId) (part : Part) : Prop :=
  st.framed id part ∨ Others st.flights i (Flight.shows id part)

section Words
variable {message : Messages.Message} {row : Row} {part : Part} {group : ReactionGroup}

theorem agrees_tombstone (now : ℕ) (hpart : part = .body ∨ part = .deleted)
    (h : (tombstone 0 blank).Agrees row part) : (tombstone now message).Agrees row part := by
  rcases hpart with rfl | rfl
  · exact h
  · have hboth : (message.deletedAt.or (some now)).isSome = true := by
      rw [Option.isSome_or]
      exact Bool.or_true _
    exact hboth.trans h

theorem agrees_tombstone_of (now : ℕ) (hbody : part ≠ .body) (hdeleted : part ≠ .deleted)
    (h : message.Agrees row part) : (tombstone now message).Agrees row part := by
  cases part with
  | body => exact absurd rfl hbody
  | deleted => exact absurd rfl hdeleted
  | pin | reactions | votes => exact h

theorem agrees_regroup (hpart : part = .reactions group.key)
    (h : (regroup group blank).Agrees row part) : (regroup group message).Agrees row part := by
  subst hpart
  have hword : groupOf (withGroup [] group) group.key = groupOf (hydrateReactions row.reactions)
      group.key := h
  rw [groupOf_withGroup, if_pos rfl] at hword
  have hheld : groupOf (withGroup message.reactions group) group.key =
      if group.count = 0 then none else some group := by
    rw [groupOf_withGroup, if_pos rfl]
  exact hheld.trans hword

theorem agrees_regroup_of (hpart : part ≠ .reactions group.key) (h : message.Agrees row part) :
    (regroup group message).Agrees row part := by
  cases part with
  | reactions key =>
    have hne : group.key ≠ key := fun he => hpart (congrArg Part.reactions he.symm)
    have hsame :
        groupOf (withGroup message.reactions group) key = groupOf message.reactions key := by
      rw [groupOf_withGroup, if_neg hne]
    exact hsame.trans h
  | body | deleted | pin | votes => exact h

/-- A message is told as the server has it. -/
theorem agrees_told (kept : Kept) (part : Part) : kept.told.message.Agrees kept.row part := by
  cases part with
  | votes => exact Option.map_map _ _ _
  | body | deleted | pin | reactions => rfl

end Words

section Held
variable {list page : List Held} {message held : Held} {st : State} {id : MessageId} {part : Part}

theorem mem_putInPlace (hnodup : (ids list).Nodup) (hin : message.id ∈ ids list)
    (h : held ∈ putInPlace list message) : held = message ∨ held ∈ list ∧ held.id ≠ message.id := by
  unfold putInPlace at h
  induction list with
  | nil => cases hin
  | cons first list ih =>
    obtain ⟨hfirst, hrest⟩ := List.nodup_cons.mp hnodup
    rw [List.replaceF] at h
    by_cases hid : first.id = message.id
    · rw [if_pos hid] at h
      rcases List.mem_cons.mp h with rfl | hold
      · exact .inl rfl
      · refine .inr ⟨List.mem_cons_of_mem _ hold, fun he => hfirst ?_⟩
        rw [hid, ← he]
        exact List.mem_map_of_mem hold
    · rw [if_neg hid] at h
      have hin' : message.id ∈ ids list := (List.mem_cons.mp hin).resolve_left fun he => hid he.symm
      rcases List.mem_cons.mp h with rfl | hold
      · exact .inr ⟨List.mem_cons_self, hid⟩
      · exact (ih hrest hin' hold).imp_right fun ⟨hmem, hne⟩ => ⟨List.mem_cons_of_mem _ hmem, hne⟩

/-- A message takes the place of the one with its id. -/
theorem mem_mergeMessage (hnodup : (ids list).Nodup) (h : held ∈ mergeMessage list message) :
    held = message ∨ held ∈ list ∧ held.id ≠ message.id := by
  unfold mergeMessage at h
  split at h
  · next hholds => exact mem_putInPlace hnodup (holds_iff.mp hholds) h
  · next hholds =>
    have hnew (hold : held ∈ list) : held.id ≠ message.id := fun he =>
      hholds (holds_iff.mpr (he ▸ List.mem_map_of_mem hold))
    have hsnoc (hin : held ∈ list ++ [message]) :
        held = message ∨ held ∈ list ∧ held.id ≠ message.id := by
      rcases List.mem_append.mp hin with hold | hone
      · exact .inr ⟨hold, hnew hold⟩
      · exact .inl (List.mem_singleton.mp hone)
    split at h
    · exact hsnoc h
    · split at h
      · exact hsnoc h
      · exact hsnoc ((sortById_perm _).mem_iff.mp h)

theorem mem_setByKey (h : held ∈ setByKey list message) : held = message ∨ held ∈ list := by
  unfold setByKey putInPlace at h
  split at h
  · clear * - h
    induction list with
    | nil => cases h
    | cons first list ih =>
      rw [List.replaceF] at h
      by_cases hid : first.id = message.id
      · rw [if_pos hid] at h
        exact (List.mem_cons.mp h).imp_right (List.mem_cons_of_mem _)
      · rw [if_neg hid] at h
        rcases List.mem_cons.mp h with rfl | hold
        · exact .inr List.mem_cons_self
        · exact (ih hold).imp_right (List.mem_cons_of_mem _)
  · exact (List.mem_append.mp h).symm.imp_left List.mem_singleton.mp

theorem mem_foldl_setByKey (h : held ∈ page.foldl setByKey list) : held ∈ list ∨ held ∈ page := by
  induction page generalizing list with
  | nil => exact .inl h
  | cons message page ih =>
    rcases ih h with hset | hpage
    · rcases mem_setByKey hset with rfl | hold
      · exact .inr List.mem_cons_self
      · exact .inl hold
    · exact .inr (List.mem_cons_of_mem _ hpage)

theorem mem_mergePage (h : held ∈ mergePage list page) : held ∈ list ∨ held ∈ page := by
  have hsorted : held ∈ sortById page ↔ held ∈ page := (sortById_perm page).mem_iff
  have happend (hin : held ∈ sortById page ++ list) : held ∈ list ∨ held ∈ page :=
    (List.mem_append.mp hin).symm.imp_right hsorted.mp
  unfold mergePage at h
  split at h
  · exact .inl h
  · dsimp only at h
    split at h
    · split at h
      · exact happend h
      · exact (mem_foldl_setByKey ((sortById_perm _).mem_iff.mp h)).imp_right hsorted.mp
    · exact happend h

theorem mem_windowed {stream : Stream} {replace : Bool} (h : held ∈ windowed stream replace page) :
    held ∈ stream.messages ∨ held ∈ page := by
  unfold windowed at h
  split at h
  · exact .inr ((sortById_perm page).mem_iff.mp h)
  · exact mem_mergePage h

/-- After a frame, whatever is held of a message says what the frame does of the parts that
it tells, and of the others what it said. -/
theorem applied_word (hnodup : (ids st.messages).Nodup) (now : ℕ) {frame : Frame}
    (hin : held ∈ (apply st now frame).messages) (hid : held.id = id) (part : Part) :
    (frame.tells id part = true ∧ ∀ row, frame.word.Agrees row part →
      held.message.Agrees row part) ∨
    frame.tells id part = false ∧ ∃ old ∈ st.messages, old.id = id ∧
      ∀ row, old.message.Agrees row part → held.message.Agrees row part := by
  -- Where the frame does not tell, what is held is what was held.
  have hold (hmem : held ∈ st.messages) : ∃ old ∈ st.messages, old.id = id ∧
      ∀ row, old.message.Agrees row part → held.message.Agrees row part :=
    ⟨held, hmem, hid, fun _ h => h⟩
  have hmerged (message : Held) (hmem : held ∈ mergeMessage st.messages message) :
      held = message ∨ held ∈ st.messages ∧ message.id ≠ id := by
    refine (mem_mergeMessage hnodup hmem).imp_right fun ⟨hm, hne⟩ => ⟨hm, fun he => hne ?_⟩
    rw [hid, he]
  have hother (message : Held) (hmem : held ∈ st.messages)
      (hnot : holds st.messages message.id = false) : message.id ≠ id := by
    intro he
    have hholds : holds st.messages message.id = true :=
      holds_iff.mpr (he ▸ hid ▸ List.mem_map_of_mem hmem)
    rw [hnot] at hholds
    cases hholds
  cases frame with
  -- A whole message tells all of it, and leaves every other message.
  | create message =>
    rw [messages_create] at hin
    split at hin
    · rcases hmerged message hin with rfl | ⟨hmem, hne⟩
      · exact .inl ⟨decide_eq_true hid, fun _ h => h⟩
      · exact .inr ⟨decide_eq_false hne, hold hmem⟩
    · next hnot =>
      rw [Bool.or_eq_true, not_or, Bool.not_eq_true] at hnot
      exact .inr ⟨decide_eq_false (hother message hin hnot.1), hold hin⟩
  | update message =>
    rw [messages_update] at hin
    split at hin
    · rcases hmerged message hin with rfl | ⟨hmem, hne⟩
      · exact .inl ⟨decide_eq_true hid, fun _ h => h⟩
      · exact .inr ⟨decide_eq_false hne, hold hmem⟩
    · next hnot =>
      rw [Bool.not_eq_true] at hnot
      exact .inr ⟨decide_eq_false (hother message hin hnot), hold hin⟩
  -- A delete tells the body and that it is gone; the rest of the tombstone is what was held.
  | delete other =>
    rw [apply, messages_rewrite] at hin
    obtain ⟨old, hmem, rfl⟩ := List.mem_map.mp hin
    by_cases hother : old.id = other
    · rw [if_pos hother] at hid ⊢
      have hsame : other = id := hother.symm.trans hid
      by_cases hpart : part = .body ∨ part = .deleted
      · refine .inl ⟨?_, fun row h => agrees_tombstone now hpart h⟩
        simp [Frame.tells, hsame, hpart]
      · obtain ⟨hbody, hdeleted⟩ := not_or.mp hpart
        refine .inr ⟨?_, old, hmem, hid, fun row h => agrees_tombstone_of now hbody hdeleted h⟩
        simp [Frame.tells, hbody, hdeleted]
    · rw [if_neg hother] at hid ⊢
      have hne : other ≠ id := fun he => hother (hid.trans he.symm)
      refine .inr ⟨?_, old, hmem, hid, fun _ h => h⟩
      simp [Frame.tells, hne]
  -- A reaction tells its own group only.
  | reaction other group =>
    rw [apply, messages_rewrite] at hin
    obtain ⟨old, hmem, rfl⟩ := List.mem_map.mp hin
    by_cases hother : old.id = other
    · rw [if_pos hother] at hid ⊢
      have hsame : other = id := hother.symm.trans hid
      by_cases hpart : part = .reactions group.key
      · refine .inl ⟨?_, fun row h => agrees_regroup hpart h⟩
        simp [Frame.tells, hsame, hpart]
      · refine .inr ⟨?_, old, hmem, hid, fun row h => agrees_regroup_of hpart h⟩
        simp [Frame.tells, hpart]
    · rw [if_neg hother] at hid ⊢
      have hne : other ≠ id := fun he => hother (hid.trans he.symm)
      refine .inr ⟨?_, old, hmem, hid, fun _ h => h⟩
      simp [Frame.tells, hne]

end Held

section Requests
variable {kept : Kept} {row : Row} {request : Request} {now : ℕ} {part : Part}

/-- A frame that tells of a change tells it as it is. -/
theorem frameOf_word (hrow : request.rewrite now kept.row = some row)
    (htells : (frameOf { kept with row := row } request).tells kept.id part = true) :
    (frameOf { kept with row := row } request).word.Agrees row part := by
  have hgroup (key : ReactionKey) (hpart : part = .reactions key) :
      (regroup (reactionGroup row.reactions key) blank).Agrees row part := by
    subst hpart
    have hword : groupOf (withGroup [] (reactionGroup row.reactions key)) key =
        groupOf (hydrateReactions row.reactions) key := by
      rw [groupOf_withGroup, groupOf_hydrateReactions]
      exact if_pos rfl
    exact hword
  cases request with
  | edit | setPin | vote | closePoll => exact agrees_told { kept with row := row } part
  | delete =>
    cases hrow
    have hpart : part = .body ∨ part = .deleted := by simpa [frameOf, Frame.tells] using htells
    rcases hpart with rfl | rfl
    · rfl
    · rfl
  | addReaction userId key | removeReaction userId key =>
    apply hgroup key
    simpa [frameOf, Frame.tells, reactionGroup] using htells

/-- What it doesn't tell of is as it was, but for the pin of a message that is deleted. -/
theorem rewrite_untold (hrow : request.rewrite now kept.row = some row)
    (htells : (frameOf { kept with row := row } request).tells kept.id part = false)
    (hpin : part = .pin → request = .delete → kept.row.pinnedAt = none)
    {message : Messages.Message} (h : message.Agrees kept.row part) : message.Agrees row part := by
  have hothers {key : ReactionKey} {reactions : List Messages.Reaction}
      (hne : part ≠ .reactions key)
      (hfilter : ∀ other, key ≠ other → (reactions.filter fun r => r.key = other) =
        kept.row.reactions.filter fun r => r.key = other) :
      message.Agrees { kept.row with reactions := reactions } part := by
    cases part with
    | reactions other =>
      have hkey : key ≠ other := fun he => hne (congrArg Part.reactions he.symm)
      have hsame := groupOf_hydrate_congr (hfilter other hkey)
      exact h.trans hsame.symm
    | body | deleted | pin | votes => exact h
  cases request with
  | edit | setPin | vote | closePoll => simp [frameOf, Frame.tells, Kept.told] at htells
  | delete =>
    cases hrow
    cases part with
    | body | deleted => simp [frameOf, Frame.tells] at htells
    | pin =>
      have hnone : message.pinnedAt = none := h.trans (hpin rfl rfl)
      exact hnone
    | reactions | votes => exact h
  | addReaction userId key =>
    have hne : part ≠ .reactions key := by
      simpa [frameOf, Frame.tells, reactionGroup] using htells
    rw [Request.rewrite] at hrow
    split at hrow
    · cases hrow
      exact hothers hne fun other hkey => filter_insertReaction hkey
    · cases hrow
  | removeReaction userId key =>
    have hne : part ≠ .reactions key := by
      simpa [frameOf, Frame.tells, reactionGroup] using htells
    rw [Request.rewrite] at hrow
    split at hrow
    · cases hrow
      refine hothers hne fun other hkey => ?_
      rw [List.filter_filter]
      apply List.filter_congr
      intro r _
      by_cases hr : r.key = other
      · simp [hr, Ne.symm hkey]
      · simp [hr]
    · cases hrow

/-- Everything a request is told by is about its message. -/
theorem frameOf_tells_other {id : MessageId} (hne : kept.id ≠ id) :
    (frameOf kept request).tells id part = false := by
  cases request with
  | edit | delete | setPin | addReaction | removeReaction | vote | closePoll =>
    simp [frameOf, Frame.tells, Kept.told, hne]

end Requests

end Linger.History
