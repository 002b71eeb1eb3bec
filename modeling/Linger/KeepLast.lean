import Mathlib.Data.List.Basic
import Mathlib.Data.List.Count
import Mathlib.Order.Lattice
import Mathlib.Order.Lex

/-! The last so many of a list's elements: sorting it and dropping the first ones keeps exactly the
elements that fewer than that many come after. -/
namespace KeepLast

variable {α : Type*} [LinearOrder α] {l : List α} {a : α} {keep : ℕ}

/-- How many of the list come after `a`. -/
def after (l : List α) (a : α) : ℕ := l.countP (a < ·)

def sorted (l : List α) : List α := l.mergeSort (· ≤ ·)

/-- All but the last `keep`, in order. -/
def past (keep : ℕ) (l : List α) : List α := (sorted l).take (l.length - keep)

/-- The last `keep`, in order. -/
def kept (keep : ℕ) (l : List α) : List α := (sorted l).drop (l.length - keep)

theorem sorted_perm (l : List α) : (sorted l).Perm l := List.mergeSort_perm l _

theorem sorted_pairwise (h : l.Nodup) : (sorted l).Pairwise (· < ·) := by
  have hle : (sorted l).Pairwise fun a b => decide (a ≤ b) = true := by
    apply List.pairwise_mergeSort
    · intro a b c hab hbc
      exact decide_eq_true ((of_decide_eq_true hab).trans (of_decide_eq_true hbc))
    · intro a b
      simpa using le_total a b
  have hne : (sorted l).Pairwise (· ≠ ·) := (sorted_perm l).nodup_iff.mpr h
  exact hle.imp₂ (fun a b hab hne => lt_of_le_of_ne (of_decide_eq_true hab) hne) hne

theorem after_perm {l' : List α} (h : l.Perm l') (a : α) : after l a = after l' a := h.countP_eq _

/-- In a sorted list, as many come after an element as stand behind it. -/
theorem after_getElem (h : l.Pairwise (· < ·)) {i : ℕ} (hi : i < l.length) :
    after l l[i] = l.length - (i + 1) := by
  have hbefore : (l.take (i + 1)).countP (l[i] < ·) = 0 := by
    apply List.countP_eq_zero.mpr
    intro b hb
    obtain ⟨j, hj, hvalue⟩ := List.getElem_of_mem hb
    rw [List.length_take] at hj
    rw [List.getElem_take] at hvalue
    rw [decide_eq_true_iff, not_lt, ← hvalue]
    rcases Nat.lt_or_ge j i with hlt | hge
    · exact (List.pairwise_iff_getElem.mp h j i (by omega) hi hlt).le
    · have heq : j = i := by omega
      subst heq
      exact le_rfl
  have hbehind : (l.drop (i + 1)).countP (l[i] < ·) = (l.drop (i + 1)).length := by
    apply List.countP_eq_length.mpr
    intro b hb
    obtain ⟨j, hj, hvalue⟩ := List.getElem_of_mem hb
    rw [List.length_drop] at hj
    rw [List.getElem_drop] at hvalue
    rw [decide_eq_true_iff, ← hvalue]
    exact List.pairwise_iff_getElem.mp h i (i + 1 + j) hi (by omega) (by omega)
  calc after l l[i]
    _ = (l.take (i + 1) ++ l.drop (i + 1)).countP (l[i] < ·) := by rw [List.take_append_drop, after]
    _ = l.length - (i + 1) := by
      rw [List.countP_append, hbefore, hbehind, Nat.zero_add, List.length_drop]

theorem mem_past (h : l.Nodup) : a ∈ past keep l ↔ a ∈ l ∧ keep ≤ after l a := by
  have hsorted := sorted_pairwise h
  have hlength := (sorted_perm l).length_eq
  constructor
  · intro hmem
    obtain ⟨i, hi, hvalue⟩ := List.getElem_of_mem hmem
    rw [past, List.length_take] at hi
    simp only [past, List.getElem_take] at hvalue
    refine ⟨(sorted_perm l).mem_iff.mp (List.mem_of_mem_take hmem), ?_⟩
    rw [← after_perm (sorted_perm l), ← hvalue, after_getElem hsorted (by omega)]
    omega
  · rintro ⟨hmem, hafter⟩
    obtain ⟨i, hi, hvalue⟩ := List.getElem_of_mem ((sorted_perm l).mem_iff.mpr hmem)
    rw [← after_perm (sorted_perm l), ← hvalue, after_getElem hsorted hi] at hafter
    apply List.mem_iff_getElem.mpr
    refine ⟨i, ?_, ?_⟩
    · rw [past, List.length_take]
      omega
    · simp only [past, List.getElem_take, hvalue]

theorem mem_kept (h : l.Nodup) : a ∈ kept keep l ↔ a ∈ l ∧ after l a < keep := by
  have hparts : past keep l ++ kept keep l = sorted l := List.take_append_drop _ _
  have hnodup : (past keep l ++ kept keep l).Nodup := by
    rw [hparts]
    exact (sorted_perm l).nodup_iff.mpr h
  have hmem : a ∈ l ↔ a ∈ past keep l ∨ a ∈ kept keep l := by
    rw [← List.mem_append, hparts]
    exact (sorted_perm l).mem_iff.symm
  constructor
  · intro hkept
    have hl := hmem.mpr (Or.inr hkept)
    refine ⟨hl, ?_⟩
    by_contra hpast
    exact (List.nodup_append.mp hnodup).2.2 a ((mem_past h).mpr ⟨hl, not_lt.mp hpast⟩) a hkept rfl
  · rintro ⟨hl, hafter⟩
    rcases hmem.mp hl with hpast | hkept
    · exact absurd ((mem_past h).mp hpast).2 (not_le.mpr hafter)
    · exact hkept

theorem kept_nodup (h : l.Nodup) : (kept keep l).Nodup :=
  ((sorted_perm l).nodup_iff.mpr h).sublist (List.drop_sublist _ _)

theorem length_kept (keep : ℕ) (l : List α) : (kept keep l).length = min keep l.length := by
  rw [kept, List.length_drop, (sorted_perm l).length_eq]
  omega

end KeepLast
