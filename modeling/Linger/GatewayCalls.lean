import Linger.GatewayMerge

/-! The calls that change a person's presence, each atomic, in any order by any
number of people and sessions. -/
namespace Linger
open FiniteMap StepMachine

/-- How the answer to a change is read off what everybody was told before and after. -/
def classify (before after : Option PresenceEntry) : Merged :=
  match after with
  | none => .same
  | some now =>
    match before with
    | some was => if was = now then .same else if was.roomId ≠ now.roomId then .moved else .changed
    | none => .changed

theorem classify_self (e : Option PresenceEntry) : classify e e = .same := by
  cases e with
  | none => rfl
  | some e => simp [classify]

theorem samePresence_eq (a b : PresenceEntry) : samePresence a b = decide (a = b) := by
  cases a
  cases b
  simp [samePresence, Bool.and_assoc]

namespace Gateway

inductive PresenceCall
  | connectionOpened (userId : UserId) (sessionId : SessionId)
  | connectionClosed (userId : UserId) (sessionId : SessionId)
  | connectionDropped (userId : UserId) (sessionId : SessionId)
  | graceOver (userId : UserId) (sessionId : SessionId) (number : ℕ)
  | updatePresence (userId : UserId) (sessionId : SessionId) (state : PresenceState)
      (awayMessage : Option String)
  | moveTo (userId : UserId) (sessionId : SessionId) (roomId : Option RoomId)
  | backEverywhere (userId : UserId)
  deriving DecidableEq

def PresenceCall.userId : PresenceCall → UserId
  | .connectionOpened u _ | .connectionClosed u _ | .connectionDropped u _ | .graceOver u _ _
  | .updatePresence u _ _ _ | .moveTo u _ _ | .backEverywhere u => u

/-- A call and its answer, for those that have one. -/
def call (g : Gateway) : PresenceCall → Gateway × Option Merged
  | .connectionOpened u s => (g.connectionOpened u s, none)
  | .connectionClosed u s => (g.connectionClosed u s).map id some
  | .connectionDropped u s => ((g.connectionDropped u s).1, none)
  | .graceOver u s number => (g.graceOver u s number).map id some
  | .updatePresence u s state awayMessage => (g.updatePresence u s state awayMessage).map id some
  | .moveTo u s roomId => (g.moveTo u s roomId).map id some
  | .backEverywhere u => (g.backEverywhere u).map id some

def presenceMachine (dms : FMap RoomId (List UserId)) : Machine Gateway PresenceCall :=
  ⟨{ Gateway.new with dmMembers := dms }, fun g c => some (g.call c).1⟩

/-- A person with no session has no entry in `session_presence` at all. -/
def NoneEmpty (g : Gateway) : Prop :=
  ∀ (v : UserId) (vs : FMap SessionId SessionPresence), g.sessionPresence[v]? = some vs → vs ≠ ∅

/-- After a call for `u` their records are `rs` and nobody else's changed,
everybody is told those merged, and `m` is the change that makes. -/
structure Settles (g : Gateway) (u : UserId) (rs : FMap SessionId SessionPresence)
    (g' : Gateway) (m : Merged) : Prop where
  records : ∀ v, g'.recordsOf v = if v = u then rs else g.recordsOf v
  nonempty : NoneEmpty g → NoneEmpty g'
  presence : ∀ v : UserId, g'.presence[v]? = if v = u then merge u (vals rs) else g.presence[v]?
  answer : m = classify (g.presence[u]?) (merge u (vals rs))

theorem recordsOf_putRecords (g : Gateway) (u v : UserId)
    (rs : FMap SessionId SessionPresence) :
    (g.putRecords u rs).recordsOf v = if v = u then rs else g.recordsOf v := by
  simp only [recordsOf, putRecords, insert_at]
  split <;> rfl

theorem settles_remerge (g : Gateway) (u : UserId) (rs : FMap SessionId SessionPresence)
    (hne : rs ≠ ∅) :
    Settles g u rs ((g.putRecords u rs).remerge u rs).1 ((g.putRecords u rs).remerge u rs).2 := by
  have hm : merge u (vals rs) ≠ none := fun h => hne ((vals_eq_nil rs).mp (merge_eq_none.mp h))
  obtain ⟨merged, hm⟩ := Option.ne_none_iff_exists'.mp hm
  have hput (h0 : NoneEmpty g) : NoneEmpty (g.putRecords u rs) := by
    intro v vs h
    simp only [putRecords, insert_at] at h
    split at h
    · cases h
      exact hne
    · exact h0 v vs h
  unfold remerge
  rw [hm]
  cases hb : g.presence[u]? with
  | none =>
    simp only [putRecords, hb]
    refine ⟨fun v => recordsOf_putRecords g u v rs, hput, fun v => ?_, ?_⟩
    · rw [insert_at, hm]
    · simp [classify, hb, hm]
  | some before =>
    by_cases hs : before = merged
    · subst hs
      simp only [putRecords, hb, samePresence_eq, decide_true, if_true]
      refine ⟨fun v => recordsOf_putRecords g u v rs, hput, fun v => ?_, ?_⟩
      · by_cases hv : v = u
        · subst hv
          simp [hb, hm]
        · simp [hv]
      · simp [classify, hb, hm]
    · simp only [putRecords, hb, samePresence_eq, hs, decide_false, Bool.false_eq_true, if_false]
      refine ⟨fun v => recordsOf_putRecords g u v rs, hput, fun v => ?_, ?_⟩
      · rw [insert_at, hm]
      · simp [classify, hb, hm, hs]

theorem settles_writeOwn (g : Gateway) (u : UserId) (s : SessionId) (own : SessionPresence) :
    Settles g u ((g.recordsOf u).insert s own) (g.writeOwn u s own).1 (g.writeOwn u s own).2 :=
  settles_remerge g u _ (insert_ne_empty _ _ _)

/-- Changing how a record is kept, and not what it says, tells nobody anything. -/
theorem settles_kept {g g' : Gateway} {u : UserId} {rs : FMap SessionId SessionPresence}
    (hm : g.presence[u]? = merge u (vals (g.recordsOf u))) (hne : rs ≠ ∅)
    (hsay : ∀ s : SessionId, (rs[s]?).map SessionPresence.say =
      ((g.recordsOf u)[s]?).map SessionPresence.say)
    (hs : g'.sessionPresence = g.sessionPresence.insert u rs) (hp : g'.presence = g.presence) :
    Settles g u rs g' .same := by
  have he : merge u (vals rs) = g.presence[u]? := by
    rw [hm]
    exact merge_congr u (vals_map_congr _ _ _ hsay)
  refine ⟨fun v => ?_, fun h0 v vs h => ?_, fun v => ?_, ?_⟩
  · simp only [recordsOf, hs, insert_at]
    split <;> rfl
  · rw [hs, insert_at] at h
    split at h
    · cases h
      exact hne
    · exact h0 v vs h
  · rw [he, hp]
    split
    · next hv => rw [hv]
    · rfl
  · rw [he, classify_self]

theorem settles_unchanged {g : Gateway} {u : UserId}
    (hm : g.presence[u]? = merge u (vals (g.recordsOf u))) :
    Settles g u (g.recordsOf u) g .same := by
  refine ⟨fun v => ?_, id, fun v => ?_, ?_⟩
  · split
    · next hv => rw [hv]
    · rfl
  · split
    · next hv => rw [hv, hm]
    · rfl
  · rw [← hm, classify_self]

theorem Settles.of_put {g g' : Gateway} {u : UserId} {rs₀ rs : FMap SessionId SessionPresence}
    {m : Merged} (hne : rs₀ ≠ ∅) (h : Settles (g.putRecords u rs₀) u rs g' m) :
    Settles g u rs g' m := by
  refine ⟨fun v => ?_, fun h0 => h.nonempty fun v vs hv => ?_, h.presence, h.answer⟩
  · rw [h.records, recordsOf_putRecords]
    split <;> rfl
  · simp only [putRecords, insert_at] at hv
    split at hv
    · cases hv
      exact hne
    · exact h0 v vs hv

theorem goOffline_presence (g : Gateway) (u : UserId) :
    (g.goOffline u).presence = g.presence.erase u := by
  have hgone : (g.goneFromRoom u).1.presence.erase u = g.presence.erase u := by
    unfold goneFromRoom
    split
    · split
      · ext1 v
        simp only [erase_at, insert_at]
        split <;> rfl
      · rfl
    · rfl
  unfold goOffline forgetRecords tellOffline forgetPresence forgetFocus
  dsimp only [publish_presence]
  split
  · rw [(onlyTells_tellFocusWhole _ u none).presence, hgone]
  · exact hgone

theorem goneFromRoom_sessionPresence (g : Gateway) (u : UserId) :
    (g.goneFromRoom u).1.sessionPresence = g.sessionPresence ∧
      (g.goneFromRoom u).1.presenceOrder = g.presenceOrder := by
  unfold goneFromRoom
  split
  · split <;> exact ⟨rfl, rfl⟩
  · exact ⟨rfl, rfl⟩

theorem goOffline_sessionPresence (g : Gateway) (u : UserId) :
    (g.goOffline u).sessionPresence = g.sessionPresence.erase u ∧
      (g.goOffline u).presenceOrder = g.presenceOrder := by
  have hgone := goneFromRoom_sessionPresence g u
  unfold goOffline forgetRecords tellOffline forgetPresence forgetFocus
  dsimp only [publish_sessionPresence, publish_presenceOrder]
  split
  · have hf := onlyTells_tellFocusWhole (g.goneFromRoom u).1 u none
    rw [hf.sessionPresence, hf.presenceOrder, hgone.1, hgone.2]
    exact ⟨rfl, rfl⟩
  · rw [hgone.1, hgone.2]
    exact ⟨rfl, rfl⟩

theorem settles_sessionGone (g : Gateway) (u : UserId) (s : SessionId) :
    Settles g u ((g.recordsOf u).erase s) (g.sessionGone u s).1 (g.sessionGone u s).2 := by
  unfold sessionGone sessionLeaves finish
  dsimp only
  by_cases he : (g.recordsOf u).erase s = ∅
  · rw [if_pos he, he]
    dsimp only
    have hr : ((g.putRecords u ∅).goOffline u).sessionPresence = g.sessionPresence.erase u := by
      rw [(goOffline_sessionPresence _ u).1]
      ext1 v
      simp only [putRecords, erase_at, insert_at]
      split <;> rfl
    have hm : merge u (vals (∅ : FMap SessionId SessionPresence)) = none := by
      rw [(vals_eq_nil _).mpr rfl, merge_nil]
    refine ⟨fun v => ?_, fun h0 v vs h => ?_, fun v => ?_, ?_⟩
    · unfold recordsOf
      rw [hr, erase_at]
      split <;> rfl
    · rw [hr, erase_at] at h
      split at h
      · cases h
      · exact h0 v vs h
    · rw [goOffline_presence, erase_at, hm]
      rfl
    · rw [hm]
      rfl
  · rw [if_neg he]
    exact settles_remerge g u _ he

end Gateway
end Linger
