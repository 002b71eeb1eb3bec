import Mathlib.Data.List.DropRight

/-! Lists with what a test takes off at both ends taken off. -/
namespace Trimming

universe u
variable {α : Type u} {p : α → Bool} {l middle before after : List α} {x : α}

def trimBoth (p : α → Bool) (l : List α) : List α := (l.dropWhile p).rdropWhile p

theorem rdropWhile_append_pos (hafter : ∀ x ∈ after, p x = true) :
    (l ++ after).rdropWhile p = l.rdropWhile p := by
  rw [List.rdropWhile, List.reverse_append, List.dropWhile_append_of_pos]
  · rfl
  · intro x hx
    exact hafter x (List.mem_reverse.mp hx)

theorem rdropWhile_eq_self (hlast : ∀ x ∈ l.getLast?, p x = false) : l.rdropWhile p = l := by
  rw [List.rdropWhile_eq_self_iff]
  intro hne
  simp [hlast (l.getLast hne) (List.getLast?_eq_some_getLast hne)]

theorem dropWhile_eq_self (hhead : ∀ x ∈ l.head?, p x = false) : l.dropWhile p = l := by
  cases l with
  | nil => rfl
  | cons x l => exact List.dropWhile_cons_of_neg (by simp [hhead x rfl])

/-- Around a middle that nothing is taken off. -/
theorem trimBoth_around (hbefore : ∀ x ∈ before, p x = true) (hafter : ∀ x ∈ after, p x = true)
    (hhead : ∀ x ∈ middle.head?, p x = false) (hlast : ∀ x ∈ middle.getLast?, p x = false) :
    trimBoth p (before ++ middle ++ after) = middle := by
  rw [trimBoth, List.append_assoc, List.dropWhile_append_of_pos hbefore]
  cases hmiddle : middle with
  | nil =>
    have hall : after.dropWhile p = [] := List.dropWhile_eq_nil_iff.mpr hafter
    rw [List.nil_append, hall]
    rfl
  | cons x rest =>
    have hx : p x = false := hhead x (by rw [hmiddle]; rfl)
    rw [List.cons_append, List.dropWhile_cons_of_neg (by simp [hx]), ← List.cons_append,
      rdropWhile_append_pos hafter, ← hmiddle, rdropWhile_eq_self hlast]

theorem trimBoth_head (hx : x ∈ (trimBoth p l).head?) : p x = false := by
  have hprefix : trimBoth p l <+: l.dropWhile p := List.rdropWhile_prefix p _
  obtain ⟨rest, hrest⟩ := hprefix
  have hhead : (l.dropWhile p).head? = some x := by
    rw [← hrest, List.head?_append, hx]
    rfl
  have hnot := List.head?_dropWhile_not p l
  rw [hhead] at hnot
  exact hnot

theorem trimBoth_last (hx : x ∈ (trimBoth p l).getLast?) : p x = false := by
  have hne : trimBoth p l ≠ [] := by
    intro hnil
    rw [hnil] at hx
    cases hx
  have hnot := List.rdropWhile_last_not p (l.dropWhile p) hne
  rw [Option.mem_def, List.getLast?_eq_some_getLast hne, Option.some.injEq] at hx
  rw [← hx]
  exact Bool.eq_false_iff.mpr hnot

theorem trimBoth_split (p : α → Bool) (l : List α) :
    ∃ before after, l = before ++ trimBoth p l ++ after ∧
    (∀ x ∈ before, p x = true) ∧ ∀ x ∈ after, p x = true := by
  refine ⟨l.takeWhile p, (l.dropWhile p).rtakeWhile p, ?_, ?_, ?_⟩
  · rw [trimBoth, List.append_assoc, List.rdropWhile_append_rtakeWhile,
      List.takeWhile_append_dropWhile]
  · intro x hx
    exact List.mem_takeWhile_imp hx
  · intro x hx
    exact List.mem_rtakeWhile_imp hx

theorem mem_of_mem_trimBoth (hx : x ∈ trimBoth p l) : x ∈ l := by
  obtain ⟨before, after, hsplit, -⟩ := trimBoth_split p l
  rw [hsplit]
  simp [hx]

theorem trimBoth_eq_self_iff :
    trimBoth p l = l ↔ (∀ x ∈ l.head?, p x = false) ∧ ∀ x ∈ l.getLast?, p x = false := by
  constructor
  · intro hself
    refine ⟨fun x hx => ?_, fun x hx => ?_⟩
    · rw [← hself] at hx
      exact trimBoth_head hx
    · rw [← hself] at hx
      exact trimBoth_last hx
  · rintro ⟨hhead, hlast⟩
    rw [trimBoth, dropWhile_eq_self hhead, rdropWhile_eq_self hlast]

theorem trimBoth_trimBoth (p : α → Bool) (l : List α) : trimBoth p (trimBoth p l) = trimBoth p l :=
  trimBoth_eq_self_iff.mpr ⟨fun _ => trimBoth_head, fun _ => trimBoth_last⟩

/-- Backwards, the same is left, backwards. -/
theorem trimBoth_reverse (p : α → Bool) (l : List α) :
    trimBoth p l.reverse = (trimBoth p l).reverse := by
  obtain ⟨before, after, hsplit, hbefore, hafter⟩ := trimBoth_split p l
  have hback : l.reverse = after.reverse ++ (trimBoth p l).reverse ++ before.reverse := by
    nth_rewrite 1 [hsplit]
    simp
  rw [hback]
  apply trimBoth_around
  · intro x hx
    exact hafter x (List.mem_reverse.mp hx)
  · intro x hx
    exact hbefore x (List.mem_reverse.mp hx)
  · intro x hx
    rw [List.head?_reverse] at hx
    exact trimBoth_last hx
  · intro x hx
    rw [List.getLast?_reverse] at hx
    exact trimBoth_head hx

end Trimming
