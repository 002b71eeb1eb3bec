import Linger.GatewayRecord
import Linger.PresenceApp
import Mathlib.Data.Finset.Card

/-! The server's half of a session's presence: the frames its sockets bring, and
what its record stands for while sockets come and go. -/
namespace Linger
open FiniteMap

namespace Gateway

/-- A frame about presence arrives on a session's socket. `visible` is whether
its person can see the room it names, which the server looks up. -/
def handleClientFrame (g : Gateway) (u : UserId) (s : SessionId) (visible : Bool) :
    ClientFrame → Gateway
  | .presenceUpdate state awayMessage =>
    let awayMessage := awayMessage.map withoutDirectionOverrides
    if awayMessage.any fun message => !awayMessageOk message then g
    else (g.updatePresence u s state awayMessage).1
  | .roomFocus roomId =>
    if roomId.isSome && !visible then g else (g.moveTo u s roomId).1

end Gateway

/-- The server takes the frame as it was meant: the room it names is accepted,
and its away message kept as it was sent. -/
def ClientFrame.Taken (visible : Bool) : ClientFrame → Prop
  | .roomFocus roomId => roomId.isSome → visible = true
  | .presenceUpdate _ awayMessage =>
    ∀ message ∈ awayMessage, withoutDirectionOverrides message = message ∧ awayMessageOk message

instance ClientFrame.decidableTaken (visible : Bool) (frame : ClientFrame) :
    Decidable (frame.Taken visible) := by
  cases frame <;> unfold ClientFrame.Taken <;> infer_instance

namespace SessionPresence

def stance (own : SessionPresence) : Stance := ⟨own.roomId, own.state, own.awayMessage⟩

/-- What a record stands for: an app that has not spoken since a resume starts over. -/
def standing (own : SessionPresence) : Stance := own.speaksAgain.1.stance

/-- A socket that opens finds the record where its app starts, or puts it there. -/
def Afresh (own : SessionPresence) : Prop := own.sockets = 0 ∨ own.standing = Stance.start

/-- A record counts the sockets held on its session, and is in a grace period
while there are none or its app has yet to speak. -/
structure Counted (held graces : Finset ℕ) (own : SessionPresence) : Prop where
  sockets : own.sockets = held.card
  afterDrop : own.heldOver = true → own.dropped.isSome
  alone : held = ∅ → own.dropped.isSome
  grace : ∀ number ∈ own.dropped, number ∈ graces

theorem standing_kept (own : SessionPresence) (sockets : ℕ) (dropped : Option ℕ) :
    ({ own with sockets := sockets, dropped := dropped } : SessionPresence).standing =
      own.standing := by
  unfold standing speaksAgain
  dsimp only
  split <;> rfl

theorem standing_of_spoken {own : SessionPresence} (h : own.heldOver = false) :
    own.standing = own.stance := by
  unfold standing speaksAgain
  rw [h]
  rfl

theorem standing_openRecord {own : SessionPresence} (h : own.sockets ≠ 0) :
    (Gateway.openRecord own).standing = own.standing := by
  have hz : ¬(own.sockets = 0 ∧ own.dropped.isSome) := fun hc => h hc.1
  unfold Gateway.openRecord
  rw [if_neg hz]
  exact standing_kept own _ _

theorem speaksAgain_keeps (own : SessionPresence) :
    own.speaksAgain.1.heldOver = false ∧ own.speaksAgain.1.sockets = own.sockets ∧
      own.speaksAgain.1.dropped = own.dropped := by
  unfold speaksAgain
  cases hh : own.heldOver with
  | false => exact ⟨hh, rfl, rfl⟩
  | true => exact ⟨rfl, rfl, rfl⟩

end SessionPresence
open SessionPresence

def Kept (held graces : Finset ℕ) : Option SessionPresence → Prop
  | none => held = ∅
  | some own => Counted held graces own

def standingOf (record : Option SessionPresence) : Stance := (record.map standing).getD Stance.start

theorem Kept.counted {held graces : Finset ℕ} {record : Option SessionPresence} {k : ℕ}
    (h : Kept held graces record) (hk : k ∈ held) :
    ∃ own, record = some own ∧ Counted held graces own := by
  cases record with
  | none =>
    have hheld : held = ∅ := h
    rw [hheld] at hk
    cases hk
  | some own => exact ⟨own, rfl, h⟩

section Record
variable {g : Gateway} {u : UserId} {s : SessionId} {held graces : Finset ℕ} {k j : ℕ}

theorem kept_opened (h : Kept held graces (g.record u s)) (hk : k ∉ held) :
    Kept (insert k held) graces ((g.connectionOpened u s).record u s) := by
  rw [Gateway.record_connectionOpened]
  have hne (he : insert k held = ∅) : False := Finset.insert_ne_empty k held he
  cases hr : g.record u s with
  | none =>
    rw [hr] at h
    have hheld : held = ∅ := h
    subst hheld
    exact ⟨rfl, by decide, fun he => absurd he (Finset.insert_ne_empty k ∅),
      fun n hn => by cases hn⟩
  | some own =>
    rw [hr] at h
    have hc : Counted held graces own := h
    refine ⟨?_, fun ho => ?_, fun he => (hne he).elim, hc.grace⟩
    · show own.sockets + 1 = _
      rw [Finset.card_insert_of_notMem hk, hc.sockets]
    · show own.dropped.isSome
      have ho : (if own.sockets = 0 ∧ own.dropped.isSome then true else own.heldOver) = true := ho
      split at ho
      · next hz => exact hz.2
      · exact hc.afterDrop ho

/-- A resume that finds nothing said, or nobody holding it, starts over. -/
theorem standing_opened_afresh (h : Kept held graces (g.record u s))
    (ha : ∀ own ∈ g.record u s, Afresh own) :
    standingOf ((g.connectionOpened u s).record u s) = Stance.start := by
  rw [Gateway.record_connectionOpened]
  cases hr : g.record u s with
  | none => rfl
  | some own =>
    rw [hr] at h ha
    have hc : Counted held graces own := h
    show (Gateway.openRecord own).standing = _
    by_cases hz : own.sockets = 0
    · have hheld : held = ∅ := Finset.card_eq_zero.mp (hc.sockets.symm.trans hz)
      have hd := hc.alone hheld
      unfold standing Gateway.openRecord SessionPresence.speaksAgain
      simp only [hz, hd, and_self, if_true]
      rfl
    · rw [standing_openRecord hz]
      exact (ha own rfl).resolve_left hz

theorem standing_opened_other (h : Kept held graces (g.record u s)) (hj : j ∈ held) :
    standingOf ((g.connectionOpened u s).record u s) = standingOf (g.record u s) := by
  obtain ⟨own, hr, hc⟩ := h.counted hj
  have hz : own.sockets ≠ 0 := by
    rw [hc.sockets]
    exact Finset.card_ne_zero_of_mem hj
  rw [Gateway.record_connectionOpened, hr]
  exact standing_openRecord hz

theorem kept_closed (h : Kept held graces (g.record u s)) (hk : k ∈ held) :
    Kept (held.erase k) graces ((g.connectionClosed u s).1.record u s) := by
  obtain ⟨own, hr, hc⟩ := h.counted hk
  have hcard : own.sockets - 1 = (held.erase k).card := by
    rw [Finset.card_erase_of_mem hk, hc.sockets]
  rw [Gateway.record_connectionClosed g u s hr]
  by_cases hs : own.sockets - 1 > 0
  · rw [if_pos hs]
    refine ⟨hcard, hc.afterDrop, fun he => ?_, hc.grace⟩
    rw [he, Finset.card_empty] at hcard
    omega
  · rw [if_neg hs]
    exact Finset.card_eq_zero.mp (by omega)

theorem standing_closed (h : Kept held graces (g.record u s)) (hk : k ∈ held)
    (hj : j ∈ held.erase k) :
    standingOf ((g.connectionClosed u s).1.record u s) = standingOf (g.record u s) := by
  obtain ⟨own, hr, hc⟩ := h.counted hk
  have hs : own.sockets - 1 > 0 := by
    rw [hc.sockets, ← Finset.card_erase_of_mem hk]
    exact Finset.card_pos.mpr ⟨j, hj⟩
  rw [Gateway.record_connectionClosed g u s hr, if_pos hs, hr]
  exact standing_kept own _ _

theorem kept_dropped (h : Kept held graces (g.record u s)) (hk : k ∈ held) :
    Kept (held.erase k) ((g.connectionDropped u s).2.elim graces (insert · graces))
      ((g.connectionDropped u s).1.record u s) := by
  obtain ⟨own, hr, hc⟩ := h.counted hk
  have hcard : own.sockets - 1 = (held.erase k).card := by
    rw [Finset.card_erase_of_mem hk, hc.sockets]
  obtain ⟨hrec, hnum⟩ := Gateway.record_connectionDropped g u s hr
  rw [hrec, hnum]
  by_cases hs : own.sockets - 1 > 0
  · rw [if_pos hs, if_pos hs]
    refine ⟨hcard, hc.afterDrop, fun he => ?_, hc.grace⟩
    rw [he, Finset.card_empty] at hcard
    omega
  · rw [if_neg hs, if_neg hs]
    refine ⟨hcard, fun _ => rfl, fun _ => rfl, fun n hn => ?_⟩
    cases hn
    exact Finset.mem_insert_self _ _

theorem standing_dropped (h : Kept held graces (g.record u s)) (hk : k ∈ held) :
    standingOf ((g.connectionDropped u s).1.record u s) = standingOf (g.record u s) := by
  obtain ⟨own, hr, -⟩ := h.counted hk
  rw [(Gateway.record_connectionDropped g u s hr).1, hr]
  exact standing_kept own _ _

theorem kept_graceOver (h : Kept held graces (g.record u s)) (number : ℕ) :
    Kept held (graces.erase number) ((g.graceOver u s number).1.record u s) := by
  by_cases hd : ∃ own, g.record u s = some own ∧ own.dropped = some number
  · obtain ⟨own, hr, hd⟩ := hd
    rw [hr] at h
    have hc : Counted held graces own := h
    rw [Gateway.record_graceOver g u s hr hd]
    by_cases hz : own.sockets = 0
    · rw [if_pos hz]
      exact Finset.card_eq_zero.mp (hc.sockets.symm.trans hz)
    · rw [if_neg hz]
      obtain ⟨ho, hs, hn⟩ := speaksAgain_keeps { own with dropped := none }
      refine ⟨hs.trans hc.sockets, fun hh => ?_, fun he => ?_, fun n hn' => ?_⟩
      · rw [ho] at hh
        cases hh
      · exact absurd (hc.sockets.trans (by rw [he, Finset.card_empty])) hz
      · rw [hn] at hn'
        cases hn'
  · have hstale : ∀ own, g.record u s = some own → own.dropped ≠ some number :=
      fun own hr hn => hd ⟨own, hr, hn⟩
    rw [Gateway.record_graceOver_stale g u s hstale]
    cases hr : g.record u s with
    | none =>
      rw [hr] at h
      exact h
    | some own =>
      rw [hr] at h
      have hc : Counted held graces own := h
      refine ⟨hc.sockets, hc.afterDrop, hc.alone, fun n hn => ?_⟩
      refine Finset.mem_erase.mpr ⟨fun he => ?_, hc.grace n hn⟩
      exact hstale own hr (by rw [← he]; exact hn)

/-- The end of a grace period only writes down what the record stood for. -/
theorem standing_graceOver (h : Kept held graces (g.record u s)) (hj : j ∈ held) (number : ℕ) :
    standingOf ((g.graceOver u s number).1.record u s) = standingOf (g.record u s) := by
  obtain ⟨own, hr, hc⟩ := h.counted hj
  by_cases hd : own.dropped = some number
  · have hz : own.sockets ≠ 0 := by
      rw [hc.sockets]
      exact Finset.card_ne_zero_of_mem hj
    rw [Gateway.record_graceOver g u s hr hd, if_neg hz, hr]
    show (SessionPresence.speaksAgain _).1.standing = own.standing
    rw [standing_of_spoken (speaksAgain_keeps _).1]
    exact standing_kept own own.sockets none
  · rw [Gateway.record_graceOver_stale g u s fun own' hr' => ?_]
    rw [hr] at hr'
    cases hr'
    exact hd

/-- What is left of a record once its app has spoken: what was heard, and the
same sockets and grace period. -/
structure Spoken (own : SessionPresence) (heard : Stance) (own' : SessionPresence) : Prop where
  spoken : own'.heldOver = false
  sockets : own'.sockets = own.sockets
  dropped : own'.dropped = own.dropped
  heard : own'.stance = heard

/-- An app that speaks again either starts the record over or goes on from it. -/
theorem speaksAgain_cases (own : SessionPresence) :
    (own.speaksAgain.2 = true ∧ own.standing = Stance.start) ∨
      (own.speaksAgain = (own, false) ∧ own.heldOver = false) := by
  unfold standing SessionPresence.speaksAgain
  cases hh : own.heldOver with
  | false => exact .inr ⟨rfl, rfl⟩
  | true => exact .inl ⟨rfl, rfl⟩

theorem record_moveTo {own : SessionPresence} (hr : g.record u s = some own)
    (roomId : Option RoomId) :
    ∃ own', (g.moveTo u s roomId).1.record u s = some own' ∧
      Spoken own (own.standing.hear (.roomFocus roomId)) own' := by
  obtain ⟨ho, hs, hd⟩ := speaksAgain_keeps own
  have hwrite (own' : SessionPresence) (g' : Gateway) :=
    (Gateway.record_writeOwn u u s s g' own').trans (if_pos ⟨rfl, rfl⟩)
  unfold Gateway.moveTo
  rw [show (g.recordsOf u)[s]? = some own from hr]
  dsimp only
  rcases speaksAgain_cases own with ⟨hstart, hst⟩ | ⟨hgoes, hover⟩
  · rw [hstart, if_neg (by simp)]
    refine ⟨_, hwrite _ _, ho, hs, hd, ?_⟩
    have hstate : own.speaksAgain.1.state = .around := congrArg Stance.state hst
    have haway : own.speaksAgain.1.awayMessage = none := congrArg Stance.awayMessage hst
    rw [hst]
    simp only [stance, hstate, haway]
    cases roomId <;> rfl
  · rw [hgoes, standing_of_spoken hover]
    by_cases hroom : own.roomId = roomId
    · rw [if_pos (by simp [hroom])]
      exact ⟨own, hr, hover, rfl,
        rfl, by rw [Stance.hear, if_pos (show own.stance.roomId = _ from hroom)]⟩
    · rw [if_neg (by simp [hroom])]
      refine ⟨_, hwrite _ _, hover, rfl, rfl, ?_⟩
      rw [Stance.hear, if_neg (show own.stance.roomId ≠ _ from hroom)]
      rfl

theorem saidState_eq (state : PresenceState) :
    Gateway.saidState state = if state = .away ∨ state = .idle then state else .around := by
  cases state <;> rfl

theorem saidAway_kept {state : PresenceState} {awayMessage : Option String}
    (h : ∀ message ∈ awayMessage, withoutDirectionOverrides message = message) :
    Gateway.saidAway state awayMessage = awayMessage.filter fun _ => state = .away := by
  unfold Gateway.saidAway
  rw [saidState_eq]
  cases awayMessage with
  | none => rfl
  | some message =>
    have hm := h message rfl
    cases state <;> simp [Option.filter, hm]

theorem record_updatePresence {own : SessionPresence} (hr : g.record u s = some own)
    (state : PresenceState) {awayMessage : Option String}
    (hkept : ∀ message ∈ awayMessage, withoutDirectionOverrides message = message) :
    ∃ own', (g.updatePresence u s state awayMessage).1.record u s = some own' ∧
      Spoken own (own.standing.hear (.presenceUpdate state awayMessage)) own' := by
  obtain ⟨ho, hs, hd⟩ := speaksAgain_keeps own
  have hwrite (own' : SessionPresence) (g' : Gateway) :=
    (Gateway.record_writeOwn u u s s g' own').trans (if_pos ⟨rfl, rfl⟩)
  unfold Gateway.updatePresence
  rw [show (g.recordsOf u)[s]? = some own from hr, saidAway_kept hkept, saidState_eq]
  dsimp only
  rcases speaksAgain_cases own with ⟨hstart, -⟩ | ⟨hgoes, hover⟩
  · rw [hstart, if_neg (by simp)]
    exact ⟨_, hwrite _ _, ho, hs, hd, rfl⟩
  · rw [hgoes, standing_of_spoken hover]
    by_cases hsame : own.state = (if state = .away ∨ state = .idle then state else .around) ∧
        own.awayMessage = awayMessage.filter fun _ => state = .away
    · rw [if_pos (by simp [← hsame.1, ← hsame.2])]
      refine ⟨own, hr, hover, rfl, rfl, ?_⟩
      rw [Stance.hear, ← hsame.1, ← hsame.2]
      rfl
    · rw [if_neg (by simpa using hsame)]
      exact ⟨_, hwrite _ _, hover, rfl, rfl, rfl⟩

/-- A frame that is taken as it was meant moves what the record stands for to
what the frame means. -/
theorem record_handle {own : SessionPresence} {visible : Bool} {frame : ClientFrame}
    (hr : g.record u s = some own) (ht : frame.Taken visible) :
    ∃ own', (g.handleClientFrame u s visible frame).record u s = some own' ∧
      Spoken own (own.standing.hear frame) own' := by
  cases frame with
  | roomFocus roomId =>
    have hseen : (roomId.isSome && !visible) = false := by
      cases hroom : roomId.isSome with
      | false => rfl
      | true => simp [ht hroom]
    have hmoves :
        g.handleClientFrame u s visible (.roomFocus roomId) = (g.moveTo u s roomId).1 := by
      unfold Gateway.handleClientFrame
      dsimp only
      rw [hseen]
      rfl
    rw [hmoves]
    exact record_moveTo hr roomId
  | presenceUpdate state awayMessage =>
    have hclean : awayMessage.map withoutDirectionOverrides = awayMessage := by
      cases awayMessage with
      | none => rfl
      | some message => rw [Option.map_some, (ht message rfl).1]
    have hok : (awayMessage.any fun message => !awayMessageOk message) = false := by
      cases awayMessage with
      | none => rfl
      | some message => simp [(ht message rfl).2]
    have hupdates : g.handleClientFrame u s visible (.presenceUpdate state awayMessage) =
        (g.updatePresence u s state awayMessage).1 := by
      unfold Gateway.handleClientFrame
      dsimp only
      rw [hclean, hok]
      rfl
    rw [hupdates]
    exact record_updatePresence hr state fun message hm => (ht message hm).1

theorem kept_handle {visible : Bool} {frame : ClientFrame} (h : Kept held graces (g.record u s))
    (hk : k ∈ held) (ht : frame.Taken visible) :
    Kept held graces ((g.handleClientFrame u s visible frame).record u s) ∧
      standingOf ((g.handleClientFrame u s visible frame).record u s) =
        (standingOf (g.record u s)).hear frame := by
  obtain ⟨own, hr, hc⟩ := h.counted hk
  obtain ⟨own', hr', hs⟩ := record_handle hr ht
  rw [hr', hr]
  refine ⟨⟨hs.sockets.trans hc.sockets, fun ho => ?_, fun he => ?_, fun n hn => ?_⟩, ?_⟩
  · rw [hs.spoken] at ho
    cases ho
  · rw [he] at hk
    cases hk
  · rw [hs.dropped] at hn
    exact hc.grace n hn
  · exact (standing_of_spoken hs.spoken).trans hs.heard

end Record
end Linger
