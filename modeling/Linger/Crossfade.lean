import Mathlib.Algebra.Order.Floor.Ring
import Mathlib.Data.Rat.Floor
import Mathlib.Tactic.Linarith
import Mathlib.Tactic.FieldSimp
import Mathlib.Tactic.Ring
import Mathlib.Tactic.Positivity

/-! Whole numbers read off rationals toward zero, and a value passing evenly from one into a moving
other: neighbouring values differ by little more than the other's own do. -/
namespace Linger.Crossfade

/-- The whole number next to it, toward zero. -/
def trunc (value : ℚ) : ℤ := if 0 ≤ value then ⌊value⌋ else ⌈value⌉

theorem trunc_intCast (value : ℤ) : trunc value = value := by
  unfold trunc
  split
  · exact Int.floor_intCast value
  · exact Int.ceil_intCast value

variable {low high : ℤ} {value other : ℚ}

theorem le_trunc (h : (low : ℚ) ≤ value) : low ≤ trunc value := by
  unfold trunc
  split
  · exact Int.le_floor.mpr h
  · exact_mod_cast h.trans (Int.le_ceil value)

theorem trunc_le (h : value ≤ high) : trunc value ≤ high := by
  unfold trunc
  split
  · exact_mod_cast (Int.floor_le value).trans h
  · exact Int.ceil_le.mpr h

/-- Going from the greater to the less, nothing is gained but what was cut off. -/
theorem trunc_sub_le (h : other ≤ value) : (trunc value : ℚ) - trunc other ≤ value - other + 1 ∧
    (trunc other : ℚ) ≤ trunc value := by
  have hfloor := Int.floor_le value
  have hfloor' := Int.lt_floor_add_one other
  have hceil := Int.ceil_lt_add_one value
  have hceil' := Int.le_ceil other
  unfold trunc
  split
  · split
    · refine ⟨by linarith, ?_⟩
      exact_mod_cast Int.floor_mono h
    · next hneg =>
      have hnonneg : (0 : ℤ) ≤ ⌊value⌋ := Int.floor_nonneg.mpr (by assumption)
      have hnonpos : ⌈other⌉ ≤ 0 := Int.ceil_le.mpr (by push_cast; linarith)
      refine ⟨by linarith, ?_⟩
      exact_mod_cast hnonpos.trans hnonneg
  · rw [if_neg (by linarith)]
    refine ⟨by linarith, ?_⟩
    exact_mod_cast Int.ceil_mono h

theorem abs_trunc_sub_le (value other : ℚ) :
    |(trunc value : ℚ) - trunc other| ≤ |value - other| + 1 := by
  rcases le_total other value with h | h
  · obtain ⟨hle, hmono⟩ := trunc_sub_le h
    rw [abs_of_nonneg (by linarith), abs_of_nonneg (by linarith)]
    exact hle
  · obtain ⟨hle, hmono⟩ := trunc_sub_le h
    rw [abs_sub_comm, abs_sub_comm value, abs_of_nonneg (by linarith), abs_of_nonneg (by linarith)]
    exact hle

/-- So many parts of the whole way from a start into another value. -/
def mixed (start : ℤ) (whole part : ℕ) (next : ℤ) : ℚ :=
  start * (1 - (part : ℚ) / whole) + next * ((part : ℚ) / whole)

variable {start first next : ℤ} {whole part : ℕ}

theorem mixed_zero : mixed start whole 0 next = start := by simp [mixed]

/-- It stays where both are. -/
theorem mixed_mem (hpart : part ≤ whole) (hstart : low ≤ start ∧ start ≤ high)
    (hnext : low ≤ next ∧ next ≤ high) :
    (low : ℚ) ≤ mixed start whole part next ∧ mixed start whole part next ≤ high := by
  have hshare : (0 : ℚ) ≤ (part : ℚ) / whole := by positivity
  have hrest : (0 : ℚ) ≤ 1 - (part : ℚ) / whole := by
    have : (part : ℚ) / whole ≤ 1 := div_le_one_of_le₀ (by exact_mod_cast hpart) (by positivity)
    linarith
  have hlow : (low : ℚ) ≤ start := by exact_mod_cast hstart.1
  have hhigh : (start : ℚ) ≤ high := by exact_mod_cast hstart.2
  have hlow' : (low : ℚ) ≤ next := by exact_mod_cast hnext.1
  have hhigh' : (next : ℚ) ≤ high := by exact_mod_cast hnext.2
  unfold mixed
  constructor
  · calc (low : ℚ) = low * (1 - (part : ℚ) / whole) + low * ((part : ℚ) / whole) := by ring
      _ ≤ _ :=
        add_le_add (mul_le_mul_of_nonneg_right hlow hrest) (mul_le_mul_of_nonneg_right hlow' hshare)
  · calc _ ≤ (high : ℚ) * (1 - (part : ℚ) / whole) + high * ((part : ℚ) / whole) :=
          add_le_add (mul_le_mul_of_nonneg_right hhigh hrest)
            (mul_le_mul_of_nonneg_right hhigh' hshare)
      _ = high := by ring

/-- One part further, the value differs by what the other moved and by a part of what is left to
pass. -/
theorem abs_mixed_sub_le (hpart : part + 1 ≤ whole) :
    |mixed start whole (part + 1) next - mixed start whole part first| ≤
      |(next : ℚ) - first| + (|(start : ℚ)| + |(first : ℚ)|) / whole := by
  have hpos : (0 : ℚ) < whole := by exact_mod_cast Nat.lt_of_lt_of_le (Nat.succ_pos part) hpart
  have hshare : ((part + 1 : ℕ) : ℚ) / whole ≤ 1 :=
    div_le_one_of_le₀ (by exact_mod_cast hpart) hpos.le
  have hshare' : (0 : ℚ) ≤ ((part + 1 : ℕ) : ℚ) / whole := by positivity
  have hsplit : mixed start whole (part + 1) next - mixed start whole part first =
      (next - first) * (((part + 1 : ℕ) : ℚ) / whole) + (first - start) / whole := by
    unfold mixed
    push_cast
    field_simp
    ring
  rw [hsplit]
  calc _ ≤ |((next : ℚ) - first) * (((part + 1 : ℕ) : ℚ) / whole)| +
      |((first : ℚ) - start) / whole| := abs_add_le _ _
    _ ≤ |(next : ℚ) - first| + (|(start : ℚ)| + |(first : ℚ)|) / whole := by
      apply add_le_add
      · rw [abs_mul, abs_of_nonneg hshare']
        exact mul_le_of_le_one_right (abs_nonneg _) hshare
      · rw [abs_div, abs_of_pos hpos]
        apply div_le_div_of_nonneg_right _ hpos.le
        rw [add_comm]
        exact abs_sub _ _

end Linger.Crossfade
