import Linger.GatewayCalls

/-! One session's record in the gateway, and what each call makes of it. -/
namespace Linger
open FiniteMap

namespace Gateway

/-- What the gateway holds of a session. -/
def record (g : Gateway) (v : UserId) (r : SessionId) : Option SessionPresence :=
  (g.recordsOf v)[r]?

/-- The calls about one session, and those about all of its person's. -/
def PresenceCall.touches (v : UserId) (r : SessionId) : PresenceCall → Bool
  | .connectionOpened u s | .connectionClosed u s | .connectionDropped u s | .graceOver u s _
  | .updatePresence u s _ _ | .moveTo u s _ => u = v ∧ s = r
  | .backEverywhere u => u = v

section Kept
variable {g g' : Gateway} (u v : UserId) (s r : SessionId)

theorem record_congr (h : g'.sessionPresence = g.sessionPresence) :
    g'.record v r = g.record v r := by
  rw [record, record, recordsOf, recordsOf, h]

theorem remerge_sessionPresence (g : Gateway) (rs : FMap SessionId SessionPresence) :
    (g.remerge u rs).1.sessionPresence = g.sessionPresence := by
  unfold remerge
  split
  · rfl
  · split
    · split <;> rfl
    · rfl

theorem record_remerge (g : Gateway) (rs : FMap SessionId SessionPresence) :
    (g.remerge u rs).1.record v r = g.record v r :=
  record_congr v r (remerge_sessionPresence u g rs)

theorem record_putRecords (g : Gateway) (rs : FMap SessionId SessionPresence) :
    (g.putRecords u rs).record v r = if v = u then rs[r]? else g.record v r := by
  rw [record, recordsOf_putRecords]
  split <;> rfl

theorem record_putOwn (g : Gateway) (own : SessionPresence) :
    (g.putRecords u ((g.recordsOf u).insert s own)).record v r =
      if v = u ∧ r = s then some own else g.record v r := by
  rw [record_putRecords]
  by_cases hv : v = u
  · subst hv
    rw [if_pos rfl, insert_at]
    by_cases hr : r = s
    · rw [if_pos hr, if_pos ⟨rfl, hr⟩]
    · rw [if_neg hr, if_neg fun h => hr h.2]
      rfl
  · rw [if_neg hv, if_neg fun h => hv h.1]

theorem record_writeOwn (g : Gateway) (own : SessionPresence) :
    (g.writeOwn u s own).1.record v r = if v = u ∧ r = s then some own else g.record v r :=
  (record_remerge u v r _ _).trans (record_putOwn u v s r g own)

theorem record_sessionGone (g : Gateway) :
    (g.sessionGone u s).1.record v r = if v = u ∧ r = s then none else g.record v r := by
  have hr := (settles_sessionGone g u s).records v
  rw [record, hr]
  by_cases hv : v = u
  · subst hv
    rw [if_pos rfl, erase_at]
    by_cases hs : r = s
    · rw [if_pos hs, if_pos ⟨rfl, hs⟩]
    · rw [if_neg hs, if_neg fun h => hs h.2]
      rfl
  · rw [if_neg hv, if_neg fun h => hv h.1]
    rfl

end Kept

section Own
variable (g : Gateway) (u : UserId) (s : SessionId)

theorem record_connectionOpened :
    (g.connectionOpened u s).record u s =
      some (openRecord ((g.record u s).getD SessionPresence.arrived)) := by
  have hw := record_writeOwn u u s s g (openRecord ((g.record u s).getD SessionPresence.arrived))
  rw [if_pos ⟨rfl, rfl⟩] at hw
  unfold connectionOpened connectionOpening
  dsimp only
  split
  · exact (record_congr u s (onlyTells_tellPresence _ u).sessionPresence).trans hw
  · exact hw

/-- The last socket to close takes the record with it. -/
theorem record_connectionClosed {own : SessionPresence} (h : g.record u s = some own) :
    (g.connectionClosed u s).1.record u s =
      if own.sockets - 1 > 0 then some { own with sockets := own.sockets - 1 } else none := by
  unfold connectionClosed connectionClosing
  rw [show (g.recordsOf u)[s]? = some own from h]
  dsimp only
  by_cases hs : own.sockets - 1 > 0
  · rw [if_pos hs, if_pos hs]
    exact (record_putOwn u u s s g _).trans (if_pos ⟨rfl, rfl⟩)
  · rw [if_neg hs, if_neg hs]
    exact (record_sessionGone u u s s _).trans (if_pos ⟨rfl, rfl⟩)

/-- The last socket to drop starts a grace period, numbered as the call answers. -/
theorem record_connectionDropped {own : SessionPresence} (h : g.record u s = some own) :
    (g.connectionDropped u s).1.record u s =
        some { own with
          sockets := own.sockets - 1
          dropped := if own.sockets - 1 > 0 then own.dropped else some (g.drops + 1) } ∧
      (g.connectionDropped u s).2 = if own.sockets - 1 > 0 then none else some (g.drops + 1) := by
  unfold connectionDropped
  rw [show (g.recordsOf u)[s]? = some own from h]
  dsimp only
  by_cases hs : own.sockets - 1 > 0
  · rw [if_pos hs, if_pos hs, if_pos hs]
    exact ⟨(record_putOwn u u s s g _).trans (if_pos ⟨rfl, rfl⟩), rfl⟩
  · rw [if_neg hs, if_neg hs, if_neg hs]
    exact ⟨(record_putOwn u u s s _ _).trans (if_pos ⟨rfl, rfl⟩), rfl⟩

/-- A grace period that is not the newest drop's changes nothing. -/
theorem record_graceOver_stale {number : ℕ}
    (h : ∀ own, g.record u s = some own → own.dropped ≠ some number) :
    (g.graceOver u s number).1.record u s = g.record u s := by
  unfold graceOver graceEnding
  split
  · rfl
  · next own hown =>
    rw [if_pos (h own hown)]
    rfl

/-- The newest drop's takes away a session that never came back, and starts
again one whose app has said nothing since. -/
theorem record_graceOver {own : SessionPresence} {number : ℕ} (h : g.record u s = some own)
    (hd : own.dropped = some number) :
    (g.graceOver u s number).1.record u s =
      if own.sockets = 0 then none
      else some ({ own with dropped := none } : SessionPresence).speaksAgain.1 := by
  have hput (own' : SessionPresence) (g' : Gateway) :=
    (record_putOwn u u s s g' own').trans (if_pos ⟨rfl, rfl⟩)
  unfold graceOver graceEnding
  rw [show (g.recordsOf u)[s]? = some own from h]
  dsimp only
  rw [if_neg (not_not_intro hd)]
  by_cases hs : own.sockets = 0
  · rw [if_pos hs, if_pos hs]
    exact (record_sessionGone u u s s _).trans (if_pos ⟨rfl, rfl⟩)
  · rw [if_neg hs, if_neg hs]
    by_cases hh : own.heldOver
    · simp only [SessionPresence.speaksAgain, hh, if_true]
      exact (record_writeOwn u u s s _ _).trans (if_pos ⟨rfl, rfl⟩)
    · simp only [SessionPresence.speaksAgain, hh, if_false, Bool.false_eq_true]
      exact hput _ g

end Own

/-- A call about other sessions leaves a session's record alone. -/
theorem record_call_elsewhere (g : Gateway) (v : UserId) (r : SessionId) (c : PresenceCall)
    (hc : c.touches v r = false) : (g.call c).1.record v r = g.record v r := by
  cases c with
  | connectionOpened u s =>
    have hne : ¬(v = u ∧ r = s) := fun h => by simp [PresenceCall.touches, h.1, h.2] at hc
    have hw := (record_writeOwn u v s r g
      (openRecord (((g.recordsOf u)[s]?).getD SessionPresence.arrived))).trans (if_neg hne)
    show (g.connectionOpened u s).record v r = _
    unfold connectionOpened connectionOpening
    dsimp only
    split
    · exact (record_congr v r (onlyTells_tellPresence _ u).sessionPresence).trans hw
    · exact hw
  | connectionClosed u s =>
    have hne : ¬(v = u ∧ r = s) := fun h => by simp [PresenceCall.touches, h.1, h.2] at hc
    show (g.connectionClosed u s).1.record v r = _
    unfold connectionClosed connectionClosing
    split
    · rfl
    · next own hown =>
      have hput := (record_putOwn u v s r g
        { own with sockets := own.sockets - 1 }).trans (if_neg hne)
      dsimp only
      split
      · exact hput
      · exact ((record_sessionGone u v s r _).trans (if_neg hne)).trans hput
  | connectionDropped u s =>
    have hne : ¬(v = u ∧ r = s) := fun h => by simp [PresenceCall.touches, h.1, h.2] at hc
    show (g.connectionDropped u s).1.record v r = _
    unfold connectionDropped
    split
    · rfl
    · dsimp only
      split
      · exact (record_putOwn u v s r g _).trans (if_neg hne)
      · exact (record_putOwn u v s r _ _).trans (if_neg hne)
  | graceOver u s number =>
    have hne : ¬(v = u ∧ r = s) := fun h => by simp [PresenceCall.touches, h.1, h.2] at hc
    show (g.graceOver u s number).1.record v r = _
    unfold graceOver graceEnding
    split
    · rfl
    · next own hown =>
      have hput := (record_putOwn u v s r g { own with dropped := none }).trans (if_neg hne)
      dsimp only
      split
      · rfl
      · split
        · exact ((record_sessionGone u v s r _).trans (if_neg hne)).trans hput
        · split
          · exact ((record_writeOwn u v s r _ _).trans (if_neg hne)).trans hput
          · exact hput
  | updatePresence u s state awayMessage =>
    have hne : ¬(v = u ∧ r = s) := fun h => by simp [PresenceCall.touches, h.1, h.2] at hc
    show (g.updatePresence u s state awayMessage).1.record v r = _
    unfold updatePresence
    split
    · rfl
    · dsimp only
      split
      · rfl
      · exact (record_writeOwn u v s r _ _).trans (if_neg hne)
  | moveTo u s roomId =>
    have hne : ¬(v = u ∧ r = s) := fun h => by simp [PresenceCall.touches, h.1, h.2] at hc
    show (g.moveTo u s roomId).1.record v r = _
    unfold moveTo
    split
    · rfl
    · dsimp only
      split
      · rfl
      · exact (record_writeOwn u v s r _ _).trans (if_neg hne)
  | backEverywhere u =>
    have hne : v ≠ u := fun h => by simp [PresenceCall.touches, h] at hc
    show (g.backEverywhere u).1.record v r = _
    unfold backEverywhere
    dsimp only
    split
    · rw [record_remerge, record_putRecords, if_neg hne]
    · rfl

end Gateway
end Linger
