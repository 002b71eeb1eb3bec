import Linger.GatewayPresence
import Linger.StepMachine

/-! What everybody is told about a person is their sessions' own say merged, in
every state the presence calls reach, and each call answers what it changed. -/
namespace Linger
open FiniteMap StepMachine

/-- What a record says, without the sockets and the drop it is kept by. -/
def SessionPresence.say (r : SessionPresence) : SessionPresence :=
  { r with sockets := 0, dropped := none, heldOver := false }

theorem merge_nil (u : UserId) : merge u [] = none := rfl

theorem merge_eq_none {u : UserId} {rs : List SessionPresence} : merge u rs = none ↔ rs = [] := by
  unfold merge
  constructor
  · intro h
    by_contra hne
    rw [if_neg (by simpa using hne)] at h
    split at h
    · cases h
    · split at h
      · cases h
      · split at h <;> cases h
  · rintro rfl
    rfl

theorem merge_userId {u : UserId} {rs : List SessionPresence} {e : PresenceEntry}
    (h : merge u rs = some e) : e.userId = u := by
  unfold merge at h
  split at h
  · cases h
  · split at h
    · cases h
      rfl
    · split at h
      · cases h
        rfl
      · split at h <;> cases h <;> rfl

/-- Only what the records say counts. -/
theorem merge_say (u : UserId) (rs : List SessionPresence) :
    merge u (rs.map SessionPresence.say) = merge u rs := by
  have haway : ((rs.map SessionPresence.say).filter fun s => s.state = .away) =
      (rs.filter fun s => s.state = .away).map SessionPresence.say := List.filter_map
  have hroom : ((rs.map SessionPresence.say).filter fun s => s.roomId.isSome) =
      (rs.filter fun s => s.roomId.isSome).map SessionPresence.say := List.filter_map
  have ha : SessionPresence.awayAt ∘ SessionPresence.say = SessionPresence.awayAt := rfl
  have hm : SessionPresence.movedAt ∘ SessionPresence.say = SessionPresence.movedAt := rfl
  unfold merge
  rw [haway, hroom, maxByKey_map, maxByKey_map, List.any_map, List.isEmpty_map, ha, hm]
  cases maxByKey SessionPresence.awayAt (rs.filter fun s => s.state = .away) with
  | some away => rfl
  | none => cases maxByKey SessionPresence.movedAt (rs.filter fun s => s.roomId.isSome) <;> rfl

theorem merge_congr (u : UserId) {rs rs' : List SessionPresence}
    (h : rs.map SessionPresence.say = rs'.map SessionPresence.say) : merge u rs = merge u rs' := by
  rw [← merge_say u rs, h, merge_say]

/-- When no two away records went away at one moment and no two records in a
room moved at one, the order they are read in does not matter. -/
theorem merge_perm (u : UserId) {rs rs' : List SessionPresence} (hp : rs.Perm rs')
    (ha : ∀ a ∈ rs, ∀ b ∈ rs, a.state = .away → b.state = .away → a.awayAt = b.awayAt → a = b)
    (hm : ∀ a ∈ rs, ∀ b ∈ rs, a.roomId.isSome → b.roomId.isSome → a.movedAt = b.movedAt → a = b) :
    merge u rs = merge u rs' := by
  have haway := maxByKey_perm (f := SessionPresence.awayAt)
    (hp.filter fun s => decide (s.state = .away)) (by
      intro a h b h'
      rw [List.mem_filter, decide_eq_true_iff] at h h'
      exact ha a h.1 b h'.1 h.2 h'.2)
  have hroom := maxByKey_perm (f := SessionPresence.movedAt)
    (hp.filter fun s => s.roomId.isSome) (by
      intro a h b h'
      rw [List.mem_filter] at h h'
      exact hm a h.1 b h'.1 h.2 h'.2)
  unfold merge
  rw [haway, hroom, hp.any_eq, hp.isEmpty_eq]

end Linger
