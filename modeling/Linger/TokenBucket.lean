import Mathlib.Algebra.Order.Field.Basic
import Mathlib.Tactic.Linarith
import Mathlib.Tactic.Ring

/-! A bucket of tokens that refills at a steady rate up to its capacity. Its level at a moment is
all there is to it, and what a stretch of time can take from it is the capacity and what flows
in. -/
namespace TokenBucket

universe u
variable {α : Type u} [Field α] [LinearOrder α]
variable {capacity rate level start finish now t : α} {kept : List α}

/-- The level after a wait. -/
def refill (capacity rate level wait : α) : α := min capacity (level + wait * rate)

/-- The level after a token is put back. -/
def giveBack (capacity level : α) : α := min capacity (level + 1)

theorem refill_le (capacity rate level wait : α) : refill capacity rate level wait ≤ capacity :=
  min_le_left _ _

theorem refill_le_add (capacity rate level wait : α) :
    refill capacity rate level wait ≤ level + wait * rate :=
  min_le_right _ _

theorem refill_zero (h : level ≤ capacity) : refill capacity rate level 0 = level := by
  rw [refill, zero_mul, add_zero, min_eq_right h]

/-- A bucket that has refilled is the same as a fresh one. -/
theorem refill_of_full {wait : α} (h : capacity ≤ level + wait * rate) :
    refill capacity rate level wait = capacity :=
  min_eq_left h

/-- How many of these moments are in a stretch of time. -/
def within (start finish : α) (moments : List α) : ℕ :=
  moments.countP fun t => start ≤ t ∧ t ≤ finish

omit [Field α] in
theorem within_eq_zero (h : ∀ t ∈ kept, t < start) : within start finish kept = 0 := by
  rw [within, List.countP_eq_zero]
  intro t ht
  simp [not_le.mpr (h t ht)]

variable [IsStrictOrderedRing α]

theorem refill_full {wait : α} (hrate : 0 ≤ rate) (hwait : 0 ≤ wait) :
    refill capacity rate capacity wait = capacity :=
  refill_of_full (le_add_of_nonneg_right (mul_nonneg hwait hrate))

theorem le_refill {wait : α} (hrate : 0 ≤ rate) (hwait : 0 ≤ wait) (hlevel : level ≤ capacity) :
    level ≤ refill capacity rate level wait :=
  le_min hlevel (le_add_of_nonneg_right (mul_nonneg hwait hrate))

theorem refill_refill {wait more : α} (hrate : 0 ≤ rate) (hmore : 0 ≤ more) :
    refill capacity rate (refill capacity rate level wait) more =
      refill capacity rate level (wait + more) := by
  have hflow : 0 ≤ more * rate := mul_nonneg hmore hrate
  calc refill capacity rate (refill capacity rate level wait) more
      = min capacity (min (capacity + more * rate) (level + wait * rate + more * rate)) := by
        rw [refill, refill, min_add_add_right]
    _ = min capacity (level + wait * rate + more * rate) := by
        rw [← min_assoc, min_eq_left (le_add_of_nonneg_right hflow)]
    _ = refill capacity rate level (wait + more) := by rw [refill, add_mul, add_assoc]

/-- A token put back on a level that is not up to date is put back on the level of now. -/
theorem refill_giveBack {wait : α} (hrate : 0 ≤ rate) (hwait : 0 ≤ wait) :
    refill capacity rate (giveBack capacity level) wait =
      giveBack capacity (refill capacity rate level wait) := by
  have hflow : 0 ≤ wait * rate := mul_nonneg hwait hrate
  calc refill capacity rate (giveBack capacity level) wait
      = min (min capacity (capacity + wait * rate)) (level + 1 + wait * rate) := by
        rw [refill, giveBack, ← min_add_add_right, min_assoc]
    _ = min (min capacity (capacity + 1)) (level + wait * rate + 1) := by
        rw [min_eq_left (le_add_of_nonneg_right hflow),
          min_eq_left (le_add_of_nonneg_right zero_le_one), add_right_comm]
    _ = giveBack capacity (refill capacity rate level wait) := by
        rw [refill, giveBack, ← min_add_add_right, min_assoc]

/-- What is known at `now` of a bucket and of the moments its tokens were taken that were not put
back, the latest first: within a stretch of time there are no more of them than it held and what
flowed in. -/
structure Bounded (capacity rate start finish now level : α) (kept : List α) : Prop where
  level_nonneg : 0 ≤ level
  level_le : level ≤ capacity
  past : ∀ t ∈ kept, t ≤ now
  latest_first : kept.Pairwise (· ≥ ·)
  inside : start ≤ now → now ≤ finish →
    (within start finish kept : α) + level ≤ capacity + (now - start) * rate
  bound : (within start finish kept : α) ≤ capacity + (finish - start) * rate

section Bounded
variable (hrate : 0 ≤ rate)
include hrate

theorem Bounded.full (hstretch : start ≤ finish) (hcapacity : 0 ≤ capacity) (now : α) :
    Bounded capacity rate start finish now capacity [] := by
  have hnone : within start finish ([] : List α) = 0 := rfl
  constructor
  case level_nonneg => exact hcapacity
  case level_le => exact le_rfl
  case past => simp
  case latest_first => exact List.Pairwise.nil
  case inside =>
    intro hstart _
    rw [hnone, Nat.cast_zero, zero_add]
    exact le_add_of_nonneg_right (mul_nonneg (sub_nonneg.mpr hstart) hrate)
  case bound =>
    rw [hnone, Nat.cast_zero]
    exact add_nonneg hcapacity (mul_nonneg (sub_nonneg.mpr hstretch) hrate)

theorem Bounded.wait (h : Bounded capacity rate start finish now level kept) {next : α}
    (hnext : now ≤ next) :
    Bounded capacity rate start finish next (refill capacity rate level (next - now)) kept := by
  have hwait : 0 ≤ next - now := sub_nonneg.mpr hnext
  constructor
  case level_nonneg => exact h.level_nonneg.trans (le_refill hrate hwait h.level_le)
  case level_le => exact refill_le _ _ _ _
  case past => exact fun t ht => (h.past t ht).trans hnext
  case latest_first => exact h.latest_first
  case bound => exact h.bound
  case inside =>
    intro hstart hfinish
    by_cases hnow : start ≤ now
    · calc (within start finish kept : α) + refill capacity rate level (next - now)
          ≤ (within start finish kept : α) + (level + (next - now) * rate) := by
            linarith only [refill_le_add capacity rate level (next - now)]
        _ ≤ capacity + (now - start) * rate + (next - now) * rate := by
            linarith only [h.inside hnow (hnext.trans hfinish)]
        _ = capacity + (next - start) * rate := by ring
    · -- Nothing has been taken in a stretch that had not begun.
      have hnone : within start finish kept = 0 :=
        within_eq_zero fun t ht => (h.past t ht).trans_lt (not_le.mp hnow)
      have hflow : 0 ≤ (next - start) * rate := mul_nonneg (sub_nonneg.mpr hstart) hrate
      rw [hnone, Nat.cast_zero, zero_add]
      linarith only [refill_le capacity rate level (next - now), hflow]

theorem Bounded.take (h : Bounded capacity rate start finish now level kept) (hone : 1 ≤ level) :
    Bounded capacity rate start finish now (level - 1) (now :: kept) := by
  have hcount : within start finish (now :: kept) =
      within start finish kept + if start ≤ now ∧ now ≤ finish then 1 else 0 := by
    simp [within, List.countP_cons]
  have hinside : start ≤ now → now ≤ finish →
      (within start finish (now :: kept) : α) + (level - 1) ≤ capacity + (now - start) * rate := by
    intro hstart hfinish
    rw [hcount, if_pos ⟨hstart, hfinish⟩, Nat.cast_add, Nat.cast_one]
    linarith only [h.inside hstart hfinish]
  constructor
  case level_nonneg => exact sub_nonneg.mpr hone
  case level_le => linarith only [h.level_le]
  case past => exact fun t ht => (List.mem_cons.mp ht).elim (fun he => he.le) (h.past t)
  case latest_first => exact List.pairwise_cons.mpr ⟨h.past, h.latest_first⟩
  case inside => exact hinside
  case bound =>
    by_cases hin : start ≤ now ∧ now ≤ finish
    · have hflow : (now - start) * rate ≤ (finish - start) * rate :=
        mul_le_mul_of_nonneg_right (sub_le_sub_right hin.2 start) hrate
      linarith only [hinside hin.1 hin.2, hflow, hone]
    · rw [hcount, if_neg hin, Nat.add_zero]
      exact h.bound

/-- The token put back is that of the latest take. -/
theorem Bounded.give (h : Bounded capacity rate start finish now level kept) :
    Bounded capacity rate start finish now (giveBack capacity level) kept.tail := by
  have hless : within start finish kept.tail ≤ within start finish kept :=
    (List.tail_sublist kept).countP_le
  constructor
  case level_nonneg =>
    exact le_min (h.level_nonneg.trans h.level_le) (add_nonneg h.level_nonneg zero_le_one)
  case level_le => exact min_le_left _ _
  case past => exact fun t ht => h.past t (List.mem_of_mem_tail ht)
  case latest_first => exact h.latest_first.sublist (List.tail_sublist kept)
  case bound => exact (Nat.cast_le.mpr hless).trans h.bound
  case inside =>
    intro hstart hfinish
    have hflow : 0 ≤ (now - start) * rate := mul_nonneg (sub_nonneg.mpr hstart) hrate
    by_cases hnone : within start finish kept = 0
    · have htail : within start finish kept.tail = 0 := Nat.le_zero.mp (hnone ▸ hless)
      rw [htail, Nat.cast_zero, zero_add]
      exact (min_le_left _ _).trans (le_add_of_nonneg_right hflow)
    · -- The latest of those taken is in the stretch if any is.
      have hfewer : within start finish kept.tail + 1 = within start finish kept := by
        cases kept with
        | nil => exact absurd rfl hnone
        | cons latest earlier =>
          have hlatest : start ≤ latest ∧ latest ≤ finish := by
            constructor
            · by_contra hbefore
              apply hnone
              apply within_eq_zero
              intro t ht
              have hle : t ≤ latest :=
                (List.mem_cons.mp ht).elim (fun he => he.le)
                  ((List.pairwise_cons.mp h.latest_first).1 t)
              exact hle.trans_lt (not_le.mp hbefore)
            · exact (h.past latest List.mem_cons_self).trans hfinish
          simp [within, hlatest]
      have hcast : (within start finish kept.tail : α) + 1 = within start finish kept := by
        rw [← hfewer, Nat.cast_add, Nat.cast_one]
      have hgiven : giveBack capacity level ≤ level + 1 := min_le_right _ _
      linarith only [h.inside hstart hfinish, hcast, hgiven]

end Bounded

end TokenBucket
