import Mathlib.Data.List.Nodup

/-! Lists in which no two elements have the same key. -/
namespace KeyedLists

universe u v
variable {α : Type u} {κ : Type v} {key : α → κ} {l : List α} {x y : α}

/-- An element, and those around it, whose keys are all others. -/
theorem around (hdistinct : (l.map key).Nodup) (hmem : x ∈ l) :
    ∃ before after, l = before ++ x :: after ∧ (∀ y ∈ before, key y ≠ key x) ∧
      ∀ y ∈ after, key y ≠ key x := by
  obtain ⟨before, after, rfl⟩ := List.append_of_mem hmem
  rw [List.map_append, List.map_cons, List.nodup_append, List.nodup_cons] at hdistinct
  obtain ⟨-, ⟨hafter, -⟩, hbefore⟩ := hdistinct
  refine ⟨before, after, rfl, ?_, ?_⟩
  · intro y hy hsame
    exact hbefore _ (List.mem_map_of_mem hy) _ List.mem_cons_self hsame
  · intro y hy hsame
    exact hafter (List.mem_map.mpr ⟨y, hy, hsame⟩)

theorem eq_of_key (hdistinct : (l.map key).Nodup) (hx : x ∈ l) (hy : y ∈ l)
    (hsame : key y = key x) : y = x :=
  List.inj_on_of_nodup_map hdistinct hy hx hsame

section Find
variable [DecidableEq κ]

theorem find?_key (hdistinct : (l.map key).Nodup) (hmem : x ∈ l) :
    l.find? (fun y => key y = key x) = some x := by
  obtain ⟨before, after, rfl, hbefore, -⟩ := around hdistinct hmem
  have hnone : before.find? (fun y => key y = key x) = none := by
    rw [List.find?_eq_none]
    intro y hy
    simpa using hbefore y hy
  rw [List.find?_append, hnone, List.find?_cons]
  simp

theorem findIdx?_key {before after : List α} (hbefore : ∀ y ∈ before, key y ≠ key x) :
    (before ++ x :: after).findIdx? (fun y => key y = key x) = some before.length := by
  have hnone : before.findIdx? (fun y => key y = key x) = none := by
    rw [List.findIdx?_eq_none_iff]
    intro y hy
    simpa using hbefore y hy
  rw [List.findIdx?_append, hnone, List.findIdx?_cons]
  simp

end Find

end KeyedLists
