import Mathlib.Tactic.Common
import Mathlib.Data.List.Basic

/-! Stretches of a log that only grows, each entry under its number, the first
being 1. -/
namespace LogSlice

universe u
variable {α : Type u}

def numbered (n : ℕ) : List α → List (ℕ × α)
  | [] => []
  | x :: xs => (n + 1, x) :: numbered (n + 1) xs

/-- The entries numbered above `lo` and up to `hi`. -/
def slice (log : List α) (lo hi : ℕ) : List (ℕ × α) := numbered lo ((log.take hi).drop lo)

theorem numbered_append (n : ℕ) (xs ys : List α) :
    numbered n (xs ++ ys) = numbered n xs ++ numbered (n + xs.length) ys := by
  induction xs generalizing n with
  | nil => rfl
  | cons x xs ih =>
    simp only [List.cons_append, numbered, List.length_cons]
    rw [ih, show n + 1 + xs.length = n + (xs.length + 1) by omega]

theorem numbered_map_fst (n : ℕ) (xs : List α) :
    (numbered n xs).map Prod.fst = List.range' (n + 1) xs.length := by
  induction xs generalizing n with
  | nil => rfl
  | cons x xs ih => simp only [numbered, List.map_cons, List.length_cons, List.range'_succ, ih]

theorem numbered_getElem? {n : ℕ} {xs : List α} {i : ℕ} {x : α} (h : (i, x) ∈ numbered n xs) :
    n < i ∧ xs[i - (n + 1)]? = some x := by
  induction xs generalizing n with
  | nil => cases h
  | cons y ys ih =>
    simp only [numbered, List.mem_cons, Prod.mk.injEq] at h
    rcases h with ⟨rfl, rfl⟩ | h
    · exact ⟨Nat.lt_succ_self n, by simp⟩
    · obtain ⟨hlt, hx⟩ := ih h
      refine ⟨by omega, ?_⟩
      rw [show i - (n + 1) = i - (n + 1 + 1) + 1 by omega]
      simpa using hx

theorem slice_self (log : List α) (lo : ℕ) : slice log lo lo = [] := by
  rw [slice, List.drop_eq_nil_of_le (List.length_take_le lo log)]
  rfl

theorem slice_length {log : List α} {lo hi : ℕ} (hhi : hi ≤ log.length) :
    (slice log lo hi).length = hi - lo := by
  have hn (n : ℕ) (xs : List α) : (numbered n xs).length = xs.length := by
    have := congrArg List.length (numbered_map_fst n xs)
    simpa using this
  rw [slice, hn, List.length_drop, List.length_take, Nat.min_eq_left hhi]

/-- Two stretches that meet are one. -/
theorem slice_append {log : List α} {lo mid hi : ℕ} (h₁ : lo ≤ mid) (h₂ : mid ≤ hi)
    (hhi : hi ≤ log.length) : slice log lo mid ++ slice log mid hi = slice log lo hi := by
  have hsplit : (log.take hi).drop lo = (log.take mid).drop lo ++ (log.take hi).drop mid := by
    have htake : log.take hi = log.take mid ++ (log.take hi).drop mid := by
      have h := List.take_append_drop mid (log.take hi)
      rw [List.take_take, Nat.min_eq_left h₂] at h
      exact h.symm
    conv_lhs => rw [htake]
    rw [List.drop_append_of_le_length]
    rw [List.length_take]
    omega
  rw [slice, slice, slice, hsplit, numbered_append]
  congr 2
  rw [List.length_drop, List.length_take]
  omega

/-- What a log holds already stays where it is. -/
theorem slice_grow {log : List α} {lo hi : ℕ} (hhi : hi ≤ log.length) (more : List α) :
    slice (log ++ more) lo hi = slice log lo hi := by
  rw [slice, slice, List.take_append_of_le_length hhi]

theorem slice_snoc {log : List α} {lo : ℕ} (hlo : lo ≤ log.length) (x : α) :
    slice (log ++ [x]) lo (log.length + 1) =
      slice log lo log.length ++ [(log.length + 1, x)] := by
  have hlen : (log ++ [x]).length = log.length + 1 := by simp
  rw [← slice_append hlo (Nat.le_succ _) (Nat.le_of_eq hlen.symm), slice_grow (Nat.le_refl _)]
  congr 1
  rw [slice, List.take_of_length_le (Nat.le_of_eq hlen), List.drop_left]
  rfl

/-- A stretch starts with the number after `lo`. -/
theorem slice_cons {log : List α} {lo hi : ℕ} {e : ℕ × α} {es : List (ℕ × α)}
    (hhi : hi ≤ log.length) (h : e :: es = slice log lo hi) :
    lo < hi ∧ e.1 = lo + 1 ∧ es = slice log (lo + 1) hi ∧ [e] = slice log lo (lo + 1) := by
  have hlen := congrArg List.length h
  rw [slice_length hhi, List.length_cons] at hlen
  have hlt : lo < hi := by omega
  rw [← slice_append (Nat.le_succ lo) hlt hhi] at h
  have hone : (slice log lo (lo + 1)).length = 1 := by
    rw [slice_length (by omega)]
    omega
  obtain ⟨e', he'⟩ := List.length_eq_one_iff.mp hone
  rw [he'] at h
  obtain ⟨rfl, hes⟩ := List.cons.inj h
  refine ⟨hlt, ?_, hes, he'.symm⟩
  have hnum : (slice log lo (lo + 1)).map Prod.fst = [lo + 1] := by
    rw [slice, numbered_map_fst, List.length_drop, List.length_take]
    rw [show min (lo + 1) log.length - lo = 1 by omega]
    rfl
  rw [he'] at hnum
  exact (List.cons.inj hnum).1

/-- From the first entry on, every number is there once and in order, over its entry. -/
theorem slice_zero {log : List α} {hi : ℕ} (hhi : hi ≤ log.length) :
    (slice log 0 hi).map Prod.fst = List.range' 1 hi ∧
      ∀ i x, (i, x) ∈ slice log 0 hi → log[i - 1]? = some x := by
  refine ⟨?_, fun i x h => ?_⟩
  · rw [slice, numbered_map_fst, List.length_drop, List.length_take, Nat.min_eq_left hhi]
    rfl
  · obtain ⟨hlt, hx⟩ := numbered_getElem? h
    rw [List.drop_zero, List.getElem?_take] at hx
    split at hx
    · exact hx
    · cases hx

theorem mem_slice {log : List α} {lo hi : ℕ} (hhi : hi ≤ log.length) (i : ℕ) :
    i ∈ (slice log lo hi).map Prod.fst ↔ lo < i ∧ i ≤ hi := by
  rw [slice, numbered_map_fst, List.mem_range'_1, List.length_drop, List.length_take,
    Nat.min_eq_left hhi]
  omega

/-- Of a stretch, the numbers above `mid` are the stretch from there. -/
theorem slice_filter {log : List α} {lo mid hi : ℕ} (h₁ : lo ≤ mid) (h₂ : mid ≤ hi)
    (hhi : hi ≤ log.length) :
    (slice log lo hi).filter (fun e => decide (mid < e.1)) = slice log mid hi := by
  rw [← slice_append h₁ h₂ hhi, List.filter_append]
  have hbelow : (slice log lo mid).filter (fun e => decide (mid < e.1)) = [] := by
    rw [List.filter_eq_nil_iff]
    intro e he
    have := (mem_slice (by omega) e.1).mp (List.mem_map_of_mem he)
    simp only [decide_eq_true_eq]
    omega
  have habove : (slice log mid hi).filter (fun e => decide (mid < e.1)) = slice log mid hi := by
    rw [List.filter_eq_self]
    intro e he
    have := (mem_slice hhi e.1).mp (List.mem_map_of_mem he)
    exact decide_eq_true this.1
  rw [hbelow, habove, List.nil_append]

end LogSlice
