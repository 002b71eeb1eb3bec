import Linger.GatewayTelling

/-! What one step of one task can do to what everybody is told, said once for
the invariants of the tellers. -/
namespace Linger
open FiniteMap StepMachine

def Task.userId : Task → Option UserId
  | .done => none
  | .told u _ | .presenceContains u | .presenceCheck u | .presenceInsert u | .presenceTurn u
  | .presenceRelease u | .presenceNow u | .focusContains u | .focusCheck u | .focusInsert u
  | .focusTurn u | .focusRelease u | .focusSound u | .focusNow u _ | .focusForget u | .opening u
  | .goneRoom u | .goneTold u _ | .goneTell u | .goneTellForget u | .goneForget u
  | .gonePresence u | .goneOffline u | .goneRecords u | .grace u _ _ => some u

/-- Whose presence a task has still to tell: a caller between its change and
its telling, a held turn, or a telling in flight. -/
def Task.obliged : Task → Option UserId
  | .done | .told _ .same | .focusForget _ | .goneRecords _ | .grace _ _ _ => none
  | t => t.userId

/-- Whose turn in `presence_held` a task is. -/
def Task.presenceWaits : Task → Option UserId
  | .presenceTurn u | .presenceRelease u => some u
  | _ => none

def Task.focusWaits : Task → Option UserId
  | .focusTurn u | .focusRelease u => some u
  | _ => none

theorem Task.userId_of_obliged {t : Task} {u : UserId} (h : t.obliged = some u) :
    t.userId = some u := by
  unfold obliged at h
  split at h
  all_goals first | exact h | exact nomatch h

theorem Task.userId_of_holds {t : Task} {u : UserId} (h : t.holds = some u) :
    t.userId = some u := by
  unfold holds at h
  split at h
  all_goals first | exact h | exact nomatch h

theorem Task.obliged_of_presenceWaits {t : Task} {u : UserId} (h : t.presenceWaits = some u) :
    t.obliged = some u := by
  unfold presenceWaits at h
  split at h
  all_goals first | exact h | exact nomatch h

theorem Task.obliged_of_focusWaits {t : Task} {u : UserId} (h : t.focusWaits = some u) :
    t.obliged = some u := by
  unfold focusWaits at h
  split at h
  all_goals first | exact h | exact nomatch h

namespace Gateway

/-- Where everybody was last told a person is. -/
def toldRoom (g : Gateway) (u : UserId) : Option RoomId := (g.focusTold[u]?).getD none

/-- A change of presence before any of it is told: the entry, if it changed, is
new and the person's own. -/
structure Changes (u : UserId) (g g' : Gateway) (m : Merged) : Prop where
  bus : g'.bus = g.bus
  focusTold : g'.focusTold = g.focusTold
  presenceHeld : g'.presenceHeld = g.presenceHeld
  focusHeld : g'.focusHeld = g.focusHeld
  dmMembers : g'.dmMembers = g.dmMembers
  presence : (m = .same ∧ g'.presence = g.presence) ∨
    (m ≠ .same ∧ ∃ entry : PresenceEntry, entry.userId = u ∧
      g'.presence = g.presence.insert u entry)

theorem changes_refl (u : UserId) (g : Gateway) : Changes u g g .same :=
  ⟨rfl, rfl, rfl, rfl, rfl, Or.inl ⟨rfl, rfl⟩⟩

theorem changes_remerge (g : Gateway) (u : UserId) (rs : FMap SessionId SessionPresence) :
    Changes u g (g.remerge u rs).1 (g.remerge u rs).2 := by
  unfold remerge
  cases hm : merge u (vals rs) with
  | none => exact changes_refl u g
  | some merged =>
    have hu := merge_userId hm
    dsimp only
    cases hb : g.presence[u]? with
    | none => exact ⟨rfl, rfl, rfl, rfl, rfl, Or.inr ⟨by simp, merged, hu, rfl⟩⟩
    | some before =>
      dsimp only
      by_cases hs : samePresence before merged
      · rw [if_pos hs]
        exact changes_refl u g
      · rw [if_neg hs]
        refine ⟨rfl, rfl, rfl, rfl, rfl, Or.inr ⟨?_, merged, hu, rfl⟩⟩
        dsimp only
        split <;> simp

/-- Records and numbers are nobody's telling, so a change from other ones is a change. -/
theorem Changes.of_records {u : UserId} {g g' : Gateway} {m : Merged}
    {records : FMap UserId (FMap SessionId SessionPresence)} {n k : ℕ}
    (h : Changes u { g with sessionPresence := records, presenceOrder := n, drops := k } g' m) :
    Changes u g g' m :=
  ⟨h.bus, h.focusTold, h.presenceHeld, h.focusHeld, h.dmMembers, h.presence⟩

theorem changes_putRecords (g : Gateway) (u : UserId) (rs : FMap SessionId SessionPresence) :
    Changes u g (g.putRecords u rs) .same :=
  ⟨rfl, rfl, rfl, rfl, rfl, Or.inl ⟨rfl, rfl⟩⟩

theorem changes_writeOwn (g : Gateway) (u : UserId) (s : SessionId) (own : SessionPresence) :
    Changes u g (g.writeOwn u s own).1 (g.writeOwn u s own).2 :=
  (changes_remerge (g.putRecords u ((g.recordsOf u).insert s own)) u _).of_records

theorem changes_updatePresence (g : Gateway) (u : UserId) (s : SessionId) (state : PresenceState)
    (awayMessage : Option String) :
    Changes u g (g.updatePresence u s state awayMessage).1
      (g.updatePresence u s state awayMessage).2 := by
  unfold updatePresence
  split
  · exact changes_refl u g
  · dsimp only
    split
    · exact changes_refl u g
    · exact (changes_writeOwn _ u s _).of_records

theorem changes_moveTo (g : Gateway) (u : UserId) (s : SessionId) (roomId : Option RoomId) :
    Changes u g (g.moveTo u s roomId).1 (g.moveTo u s roomId).2 := by
  unfold moveTo
  split
  · exact changes_refl u g
  · dsimp only
    split
    · exact changes_refl u g
    · exact (changes_writeOwn _ u s _).of_records

theorem changes_backEverywhere (g : Gateway) (u : UserId) :
    Changes u g (g.backEverywhere u).1 (g.backEverywhere u).2 := by
  unfold backEverywhere
  dsimp only
  split
  · exact (changes_remerge (g.putRecords u _) u _).of_records
  · exact changes_refl u g

/-- What is left of a closing call: its answer, or the way offline with nothing
changed yet. -/
def ClosingChanges (u : UserId) (g : Gateway) (left : Gateway × Option Merged) : Prop :=
  Changes u g left.1 (left.2.getD .same)

theorem changes_sessionLeaves (g : Gateway) (u : UserId) (s : SessionId) :
    ClosingChanges u g (g.sessionLeaves u s) := by
  unfold sessionLeaves ClosingChanges
  dsimp only
  split
  · exact changes_putRecords g u _
  · exact (changes_remerge (g.putRecords u _) u _).of_records

theorem changes_connectionClosing (g : Gateway) (u : UserId) (s : SessionId) :
    ClosingChanges u g (g.connectionClosing u s) := by
  unfold connectionClosing
  split
  · exact changes_refl u g
  · dsimp only
    split
    · exact changes_putRecords g u _
    · exact (changes_sessionLeaves (g.putRecords u _) u s).of_records

theorem changes_graceEnding (g : Gateway) (u : UserId) (s : SessionId) (number : ℕ) :
    ClosingChanges u g (g.graceEnding u s number) := by
  unfold graceEnding
  split
  · exact changes_refl u g
  · dsimp only
    split
    · exact changes_refl u g
    · split
      · exact (changes_sessionLeaves (g.putRecords u _) u s).of_records
      · split
        · exact (changes_writeOwn (g.putRecords u _) u s _).of_records
        · exact changes_putRecords g u _

theorem changes_connectionDropped (g : Gateway) (u : UserId) (s : SessionId) :
    Changes u g (g.connectionDropped u s).1 .same := by
  unfold connectionDropped
  split
  · exact changes_refl u g
  · dsimp only
    split
    · exact changes_putRecords g u _
    · exact ⟨rfl, rfl, rfl, rfl, rfl, Or.inl ⟨rfl, rfl⟩⟩

/-- What one step of a task about `u`, from `old` to `next`, does. A change is
made only by whoever holds the person's entry, or finds it `free`. -/
inductive Effect (free : Prop) (u : UserId) (old next : Task) (g g' : Gateway) : Prop
  | kept (hbus : g'.bus = g.bus) (hpresence : g'.presence = g.presence)
      (htold : ∀ v, g'.toldRoom v = g.toldRoom v)
      (hobliged : old.obliged = some u → next.obliged = some u ∨ u ∈ g'.presenceHeld ∨
        u ∈ g'.focusHeld ∨ g.presence[u]? = none)
      (hold : old ≠ .goneOffline u) (hnext : next ≠ .goneOffline u)
  | tells (h : g' = g.tellPresence u) (hold : old ≠ .goneOffline u) (hnext : next = .done)
  | moves (entry : PresenceEntry) (sound : Option String) (he : g.presence[u]? = some entry)
      (h : g' = (g.tellFocus u sound).1) (hold : old ≠ .goneOffline u)
      (hnext : next = .done ∨ next = .goneForget u)
  | forgets (h : g' = g.forgetFocus u)
      (hstands : (old = .focusForget u ∧ next = .done) ∨
        (old = .goneTellForget u ∧ next = .goneForget u) ∨
        (old = .goneForget u ∧ next = .gonePresence u))
  | changes (entry : PresenceEntry) (huser : entry.userId = u) (hbus : g'.bus = g.bus)
      (hpresence : g'.presence = g.presence.insert u entry) (hfocus : g'.focusTold = g.focusTold)
      (hfree : old.holds = some u ∨ free) (hobliged : next.obliged = some u)
      (hold : old ≠ .goneOffline u) (hnext : next ≠ .goneOffline u)
  | removes (h : g' = g.forgetPresence u) (hold : old = .gonePresence u)
      (hnext : next = .goneOffline u)
  | offline (h : g' = g.tellOffline u) (hold : old = .goneOffline u)
      (hnext : next = .goneRecords u)

variable {free : Prop} {u : UserId} {old next : Task} {g g' : Gateway}

/-- A call that finds the person's entry free either changes nothing, or leaves
a task that has the change to tell. -/
theorem Changes.effect {m : Merged} (h : Changes u g g' m) (hfree : free)
    (hobliged : m ≠ .same → next.obliged = some u) (hold : old.obliged = none)
    (hnext : next ≠ .goneOffline u) : Effect free u old next g g' := by
  have hoff : old ≠ .goneOffline u := by
    rintro rfl
    cases hold
  rcases h.presence with ⟨-, hp⟩ | ⟨hm, entry, hu, hp⟩
  · refine .kept h.bus hp (fun v => ?_) (fun ho => ?_) hoff hnext
    · rw [toldRoom, toldRoom, h.focusTold]
    · rw [hold] at ho
      cases ho
  · exact .changes entry hu h.bus hp h.focusTold (Or.inr hfree) (hobliged hm) hoff hnext

theorem obliged_told {m : Merged} (hm : m ≠ .same) : (Task.told u m).obliged = some u := by
  cases m with
  | same => exact absurd rfl hm
  | changed => rfl
  | moved => rfl

theorem effect_afterClosing {left : Gateway × Option Merged} (h : ClosingChanges u g left)
    (hfree : free) (hold : old.obliged = none) :
    Effect free u old (afterClosing u left).2 g (afterClosing u left).1 := by
  obtain ⟨g', answer⟩ := left
  cases answer with
  | some m => exact Changes.effect h hfree obliged_told hold (by simp [afterClosing])
  | none => exact Changes.effect h hfree (fun _ => rfl) hold (by simp [afterClosing])

theorem effect_begin (c : PresenceCall) (hfree : free) (hold : old.obliged = none) :
    Effect free c.userId old (g.begin c).2 g (g.begin c).1 := by
  cases c with
  | connectionOpened u s =>
    refine Changes.effect (changes_writeOwn g u s _) hfree (fun hm => ?_) hold ?_
    · exact (congrArg Task.obliged (if_pos hm)).trans rfl
    · dsimp only [begin]
      split <;> simp
  | connectionClosed u s => exact effect_afterClosing (changes_connectionClosing g u s) hfree hold
  | graceOver u s number => exact effect_afterClosing (changes_graceEnding g u s number) hfree hold
  | updatePresence u s state awayMessage =>
    exact Changes.effect (changes_updatePresence g u s state awayMessage) hfree obliged_told hold
      (by simp [begin])
  | moveTo u s roomId =>
    exact Changes.effect (changes_moveTo g u s roomId) hfree obliged_told hold (by simp [begin])
  | backEverywhere u =>
    exact Changes.effect (changes_backEverywhere g u) hfree obliged_told hold (by simp [begin])
  | connectionDropped u s =>
    have h := changes_connectionDropped g u s
    have hb : (g.begin (.connectionDropped u s)).1 = (g.connectionDropped u s).1 := by
      dsimp only [begin]
      split
      · next hd => rw [hd]
      · next hd => rw [hd]
    rw [hb]
    refine h.effect hfree (fun hm => absurd rfl hm) hold ?_
    dsimp only [begin]
    split <;> simp

theorem toldRoom_rememberFocus (g : Gateway) (u v : UserId) (room : Option RoomId) :
    (g.rememberFocus u room).toldRoom v = if v = u then room else g.toldRoom v := by
  unfold toldRoom rememberFocus
  dsimp only
  rw [insert_at]
  split <;> rfl

theorem toldRoom_forgetFocus (g : Gateway) (u v : UserId) :
    (g.forgetFocus u).toldRoom v = if v = u then none else g.toldRoom v := by
  unfold toldRoom forgetFocus
  dsimp only
  rw [erase_at]
  split <;> rfl

/-- Telling a move of somebody who is offline by now tells nothing. -/
theorem tellFocus_offline {g : Gateway} {u : UserId} (h : g.presence[u]? = none)
    (sound : Option String) :
    g.tellFocus u sound = (g.rememberFocus u (g.toldRoom u), true) := by
  have h' : (g.rememberFocus u (g.toldRoom u)).presence[u]? = none := h
  unfold tellFocus
  dsimp only
  rw [show (g.focusTold[u]?).getD none = g.toldRoom u from rfl, h']

theorem tellFocus_online {g : Gateway} {u : UserId} {entry : PresenceEntry}
    (h : g.presence[u]? = some entry) (sound : Option String) :
    g.tellFocus u sound = ((if g.toldRoom u ≠ entry.roomId then
        (((g.rememberFocus u (g.toldRoom u)).tellLeave u (g.toldRoom u)).tellEnter u entry.roomId
          sound).rememberFocus u entry.roomId
      else g.rememberFocus u (g.toldRoom u)).tellPresence u, false) := by
  have h' : (g.rememberFocus u (g.toldRoom u)).presence[u]? = some entry := h
  unfold tellFocus
  dsimp only
  rw [show (g.focusTold[u]?).getD none = g.toldRoom u from rfl, h']

/-- A step that only moves its task on. -/
theorem effect_stays (hobliged : old.obliged = some u → next.obliged = some u ∨
      u ∈ g.presenceHeld ∨ u ∈ g.focusHeld ∨ g.presence[u]? = none)
    (hold : old ≠ .goneOffline u) (hnext : next ≠ .goneOffline u) : Effect free u old next g g :=
  .kept rfl rfl (fun _ => rfl) hobliged hold hnext

/-- The section of `tell_focus` that holds the person's `focus_told` entry. -/
theorem effect_tellFocus {online offline : Task} (sound : Option String)
    (hold : old ≠ .goneOffline u) (honline : online = .done ∨ online = .goneForget u)
    (hoffline : offline ≠ .goneOffline u) :
    Effect free u old (if (g.tellFocus u sound).2 then offline else online) g
      (g.tellFocus u sound).1 := by
  cases hp : g.presence[u]? with
  | none =>
    rw [tellFocus_offline hp, if_pos rfl]
    refine .kept rfl rfl (fun v => ?_) (fun _ => Or.inr (Or.inr (Or.inr hp))) hold hoffline
    rw [toldRoom_rememberFocus]
    split
    · next hv => rw [hv]
    · rfl
  | some entry =>
    have hon : (g.tellFocus u sound).2 = false := by rw [tellFocus_online hp]
    rw [hon, if_neg Bool.false_ne_true]
    exact .moves entry sound hp rfl hold honline

theorem effect_goneRoom (hown : ∀ e, g.presence[u]? = some e → e.userId = u) :
    Effect free u (.goneRoom u) (.goneTold u (g.goneFromRoom u).2) g (g.goneFromRoom u).1 := by
  unfold goneFromRoom
  cases hp : g.presence[u]? with
  | none => exact effect_stays (fun _ => Or.inl rfl) (by simp) (by simp)
  | some entry =>
    dsimp only
    split
    · exact .changes { entry with roomId := none, state := .around } (hown entry hp) rfl rfl rfl
        (Or.inl rfl) rfl (by simp) (by simp)
    · exact effect_stays (fun _ => Or.inl rfl) (by simp) (by simp)

theorem effect_advance (o : Outcome) (hu : old.userId = some u)
    (hown : ∀ e, g.presence[u]? = some e → e.userId = u)
    (hfree : Telling.waitsFor old = some u → free) :
    Effect free u old (g.advance o old).2 g (g.advance o old).1 := by
  cases old with
  | done => cases hu
  | grace v s number =>
    cases hu
    exact effect_begin (.graceOver u s number) (hfree rfl) rfl
  -- The tasks of `set_presence` and `focus` in turn: each keeps who it is about.
  | told v m =>
    cases hu
    cases m with
    | same => exact effect_stays (fun h => nomatch h) (by simp) (by simp [advance])
    | changed => exact effect_stays (fun h => Or.inl h) (by simp) (by simp [advance])
    | moved => exact effect_stays (fun h => Or.inl h) (by simp) (by simp [advance])
  | presenceContains v =>
    cases hu
    dsimp only [advance]
    split
    · next hheld => exact effect_stays (fun _ => Or.inr (Or.inl hheld)) (by simp) (by simp)
    · exact effect_stays (fun h => Or.inl h) (by simp) (by simp)
  | presenceCheck v =>
    cases hu
    dsimp only [advance]
    split <;> exact effect_stays (fun h => Or.inl h) (by simp) (by simp)
  | presenceInsert v =>
    cases hu
    dsimp only [advance]
    split
    · next hheld => exact effect_stays (fun _ => Or.inr (Or.inl hheld)) (by simp) (by simp)
    · exact .kept rfl rfl (fun _ => rfl) (fun h => Or.inl h) (by simp) (by simp)
  | presenceTurn v =>
    cases hu
    dsimp only [advance]
    split <;> exact effect_stays (fun h => Or.inl h) (by simp) (by simp)
  | presenceRelease v =>
    cases hu
    exact .kept rfl rfl (fun _ => rfl) (fun h => Or.inl h) (by simp) (by simp [advance])
  | presenceNow v =>
    cases hu
    exact .tells rfl (by simp) rfl
  | focusContains v =>
    cases hu
    dsimp only [advance]
    split
    · next hheld => exact effect_stays (fun _ => Or.inr (Or.inr (Or.inl hheld))) (by simp) (by simp)
    · exact effect_stays (fun h => Or.inl h) (by simp) (by simp)
  | focusCheck v =>
    cases hu
    dsimp only [advance]
    split <;> exact effect_stays (fun h => Or.inl h) (by simp) (by simp)
  | focusInsert v =>
    cases hu
    dsimp only [advance]
    split
    · next hheld => exact effect_stays (fun _ => Or.inr (Or.inr (Or.inl hheld))) (by simp) (by simp)
    · exact .kept rfl rfl (fun _ => rfl) (fun h => Or.inl h) (by simp) (by simp)
  | focusTurn v =>
    cases hu
    dsimp only [advance]
    split <;> exact effect_stays (fun h => Or.inl h) (by simp) (by simp)
  | focusRelease v =>
    cases hu
    exact .kept rfl rfl (fun _ => rfl) (fun h => Or.inl h) (by simp) (by simp [advance])
  | focusSound v =>
    cases hu
    exact effect_stays (fun h => Or.inl h) (by simp) (by simp [advance])
  | focusNow v sound =>
    cases hu
    exact effect_tellFocus sound (by simp) (Or.inl rfl) (by simp)
  -- The rest end a session: they tell, forget, and take the record away.
  | focusForget v =>
    cases hu
    exact .forgets rfl (Or.inl ⟨rfl, rfl⟩)
  | opening v =>
    cases hu
    exact .tells rfl (by simp) rfl
  | goneRoom v =>
    cases hu
    exact effect_goneRoom hown
  | goneTold v moved =>
    cases hu
    dsimp only [advance]
    split <;> exact effect_stays (fun h => Or.inl h) (by simp) (by simp)
  | goneTell v =>
    cases hu
    exact effect_tellFocus none (by simp) (Or.inr rfl) (by simp)
  | goneTellForget v =>
    cases hu
    exact .forgets rfl (Or.inr (Or.inl ⟨rfl, rfl⟩))
  | goneForget v =>
    cases hu
    exact .forgets rfl (Or.inr (Or.inr ⟨rfl, rfl⟩))
  | gonePresence v =>
    cases hu
    exact .removes rfl rfl rfl
  | goneOffline v =>
    cases hu
    exact .offline rfl rfl rfl
  | goneRecords v =>
    cases hu
    exact .kept rfl rfl (fun _ => rfl) (fun h => nomatch h) (by simp) (by simp [advance])

theorem begin_userId (g : Gateway) (c : PresenceCall) {v : UserId}
    (h : (g.begin c).2.userId = some v) : c.userId = v := by
  cases c <;> simp only [begin, afterClosing, Prod.map_snd] at h
  all_goals
    try split at h
    all_goals first | exact Option.some.inj h | exact nomatch h

theorem advance_userId (g : Gateway) (o : Outcome) {v : UserId}
    (h : (g.advance o old).2.userId = some v) : old.userId = some v := by
  cases old with
  | done => exact h
  | grace u s number => exact congrArg some (begin_userId g _ h)
  | told u m => cases m <;> first | exact h | exact nomatch h
  | _ =>
    simp only [advance] at h
    try split at h
    all_goals first | exact h | exact nomatch h

/-- Only the end of a grace period, once it finds the entry free, comes to hold it. -/
theorem advance_holds (g : Gateway) (o : Outcome) {v : UserId}
    (h : (g.advance o old).2.holds = some v) :
    old.holds = some v ∨ (old.holds = none ∧ Telling.waitsFor old = some v) := by
  cases old with
  | done => cases h
  | grace u s number =>
    exact Or.inr ⟨rfl, congrArg some (begin_userId g _ (Task.userId_of_holds h))⟩
  | told u m => cases m <;> exact nomatch h
  | _ =>
    simp only [advance] at h
    try split at h
    all_goals first | exact Or.inl h | exact nomatch h

/-- Nobody's turn and no DM changed hands. -/
structure SameHeld (g g' : Gateway) : Prop where
  presenceHeld : g'.presenceHeld = g.presenceHeld
  focusHeld : g'.focusHeld = g.focusHeld
  dmMembers : g'.dmMembers = g.dmMembers

theorem SameHeld.refl (g : Gateway) : SameHeld g g := ⟨rfl, rfl, rfl⟩

theorem Changes.sameHeld {m : Merged} (h : Changes u g g' m) : SameHeld g g' :=
  ⟨h.presenceHeld, h.focusHeld, h.dmMembers⟩

theorem OnlyTells.sameHeld (h : OnlyTells g g') : SameHeld g g' :=
  ⟨h.presenceHeld, h.focusHeld, h.dmMembers⟩

theorem sameHeld_goneFromRoom (g : Gateway) (u : UserId) : SameHeld g (g.goneFromRoom u).1 := by
  unfold goneFromRoom
  split
  · split <;> exact ⟨rfl, rfl, rfl⟩
  · exact SameHeld.refl g

theorem sameHeld_begin (g : Gateway) (c : PresenceCall) : SameHeld g (g.begin c).1 := by
  have hclosing {u : UserId} {left : Gateway × Option Merged} (h : ClosingChanges u g left) :
      SameHeld g (afterClosing u left).1 := by
    unfold afterClosing
    split <;> exact Changes.sameHeld h
  cases c with
  | connectionOpened u s => exact (changes_writeOwn g u s _).sameHeld
  | connectionClosed u s => exact hclosing (changes_connectionClosing g u s)
  | graceOver u s number => exact hclosing (changes_graceEnding g u s number)
  | updatePresence u s state awayMessage =>
    exact (changes_updatePresence g u s state awayMessage).sameHeld
  | moveTo u s roomId => exact (changes_moveTo g u s roomId).sameHeld
  | backEverywhere u => exact (changes_backEverywhere g u).sameHeld
  | connectionDropped u s =>
    have h := changes_connectionDropped g u s
    dsimp only [begin]
    split
    all_goals
      next hd =>
      rw [hd] at h
      exact h.sameHeld

/-- The turns a step takes or lets go of, whatever else it does. -/
theorem sameHeld_advance (g : Gateway) (o : Outcome) (old : Task) :
    SameHeld (match old with
      | .presenceInsert u => g.holdPresence u
      | .presenceRelease u => g.letPresence u
      | .focusInsert u => g.holdFocus u
      | .focusRelease u => g.letFocus u
      | _ => g) (g.advance o old).1 := by
  cases old with
  | grace u s number => exact sameHeld_begin g _
  | told u m => cases m <;> exact SameHeld.refl g
  | presenceInsert u =>
    dsimp only [advance]
    split
    · next hu => exact ⟨(Finset.insert_eq_of_mem hu).symm, rfl, rfl⟩
    · exact SameHeld.refl _
  | focusInsert u =>
    dsimp only [advance]
    split
    · next hu => exact ⟨rfl, (Finset.insert_eq_of_mem hu).symm, rfl⟩
    · exact SameHeld.refl _
  | presenceNow u => exact (onlyTells_tellPresence g u).sameHeld
  | opening u => exact (onlyTells_tellPresence g u).sameHeld
  | focusNow u sound => exact (onlyTells_tellFocus g u sound).sameHeld
  | goneTell u => exact (onlyTells_tellFocus g u none).sameHeld
  | goneRoom u => exact sameHeld_goneFromRoom g u
  | _ => exact ⟨rfl, rfl, rfl⟩

theorem advance_dmMembers (g : Gateway) (o : Outcome) (old : Task) :
    (g.advance o old).1.dmMembers = g.dmMembers := by
  rw [(sameHeld_advance g o old).dmMembers]
  cases old <;> rfl

/-- Whoever is in `presence_held` after a step has the turn the step leaves, or
was in it before and their turn is another task's. -/
theorem advance_presenceWaits (g : Gateway) (o : Outcome) (v : UserId)
    (h : v ∈ (g.advance o old).1.presenceHeld) :
    (g.advance o old).2.presenceWaits = some v ∨
      (v ∈ g.presenceHeld ∧ old.presenceWaits ≠ some v) := by
  rw [(sameHeld_advance g o old).presenceHeld] at h
  cases old with
  | presenceInsert u =>
    replace h : v ∈ insert u g.presenceHeld := h
    by_cases hu : u ∈ g.presenceHeld
    · rw [Finset.insert_eq_of_mem hu] at h
      exact Or.inr ⟨h, nofun⟩
    · rcases Finset.mem_insert.mp h with rfl | hv
      · dsimp only [advance]
        rw [if_neg hu]
        exact Or.inl rfl
      · exact Or.inr ⟨hv, nofun⟩
  | presenceTurn u =>
    by_cases hv : v = u
    · subst hv
      dsimp only [advance]
      split <;> exact Or.inl rfl
    · exact Or.inr ⟨h, fun hw => hv (Option.some.inj hw).symm⟩
  | presenceRelease u =>
    have hv := Finset.mem_erase.mp h
    exact Or.inr ⟨hv.2, fun hw => hv.1 (Option.some.inj hw).symm⟩
  | _ => exact Or.inr ⟨h, nofun⟩

theorem advance_focusWaits (g : Gateway) (o : Outcome) (v : UserId)
    (h : v ∈ (g.advance o old).1.focusHeld) :
    (g.advance o old).2.focusWaits = some v ∨
      (v ∈ g.focusHeld ∧ old.focusWaits ≠ some v) := by
  rw [(sameHeld_advance g o old).focusHeld] at h
  cases old with
  | focusInsert u =>
    replace h : v ∈ insert u g.focusHeld := h
    by_cases hu : u ∈ g.focusHeld
    · rw [Finset.insert_eq_of_mem hu] at h
      exact Or.inr ⟨h, nofun⟩
    · rcases Finset.mem_insert.mp h with rfl | hv
      · dsimp only [advance]
        rw [if_neg hu]
        exact Or.inl rfl
      · exact Or.inr ⟨hv, nofun⟩
  | focusTurn u =>
    by_cases hv : v = u
    · subst hv
      dsimp only [advance]
      split <;> exact Or.inl rfl
    · exact Or.inr ⟨h, fun hw => hv (Option.some.inj hw).symm⟩
  | focusRelease u =>
    have hv := Finset.mem_erase.mp h
    exact Or.inr ⟨hv.2, fun hw => hv.1 (Option.some.inj hw).symm⟩
  | _ => exact Or.inr ⟨h, nofun⟩

end Gateway
end Linger
