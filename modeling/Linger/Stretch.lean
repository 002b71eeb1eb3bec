import Mathlib.Order.Basic
import Mathlib.Data.List.Sort
import Mathlib.Tactic.Common

/-! Stretches of an ascending list: what is held of it has no gap, or reaches to its end, and
how taking from either end, adding to it and joining two stretches keep that. -/
namespace Stretch

universe u
variable {α : Type u} [LinearOrder α] {all held page both : List α} {a b c x : α} {n : ℕ}

def NoGap (all held : List α) : Prop :=
  ∀ x ∈ all, ∀ a ∈ held, ∀ b ∈ held, a ≤ x → x ≤ b → x ∈ held

def ToEnd (all held : List α) : Prop := ∀ x ∈ all, ∀ a ∈ held, a ≤ x → x ∈ held

theorem ToEnd.noGap (h : ToEnd all held) : NoGap all held :=
  fun x hx a ha _ _ hax _ => h x hx a ha hax

theorem NoGap.mono {part : List α} (h : NoGap all held) (hsub : part ⊆ all) : NoGap part held :=
  fun x hx => h x (hsub hx)

/-- What comes after all there is makes no gap. -/
theorem NoGap.grow (h : NoGap all held) (hheld : held ⊆ all) (hnew : ∀ y ∈ all, y < x) :
    NoGap (all ++ [x]) held := by
  intro y hy a ha b hb hay hyb
  rcases List.mem_append.mp hy with hold | hone
  · exact h y hold a ha b hb hay hyb
  · rw [List.mem_singleton.mp hone] at hyb
    exact absurd hyb (not_le.mpr (hnew b (hheld hb)))

/-- One beyond all is added, which may be of them from then on. -/
theorem ToEnd.insert (h : ToEnd all held) (hnew : ∀ y ∈ all, y < x)
    (hboth : ∀ y, y ∈ both ↔ y = x ∨ y ∈ held) : ToEnd (all ++ [x]) both := by
  intro y hy a ha hay
  rw [hboth] at ha ⊢
  rcases List.mem_append.mp hy with hold | hone
  · rcases ha with rfl | ha
    · exact absurd hay (not_le.mpr (hnew y hold))
    · exact .inr (h y hold a ha hay)
  · exact .inl (List.mem_singleton.mp hone)

theorem ToEnd.mono {part : List α} (h : ToEnd all held) (hsub : part ⊆ all) : ToEnd part held :=
  fun x hx => h x (hsub hx)

/-- Two stretches that share one of theirs. -/
theorem NoGap.union (hheld : NoGap all held) (hpage : NoGap all page) (hc : c ∈ held)
    (hc' : c ∈ page) (hboth : ∀ y, y ∈ both ↔ y ∈ held ∨ y ∈ page) : NoGap all both := by
  intro x hx a ha b hb hax hxb
  rw [hboth] at ha hb ⊢
  -- below the shared one with the part `a` is of, above it with that of `b`
  rcases le_total x c with hxc | hcx
  · rcases ha with ha | ha
    · exact .inl (hheld x hx a ha c hc hax hxc)
    · exact .inr (hpage x hx a ha c hc' hax hxc)
  · rcases hb with hb | hb
    · exact .inl (hheld x hx c hc b hb hcx hxb)
    · exact .inr (hpage x hx c hc' b hb hcx hxb)

section Sorted

theorem mem_drop_of_le (hs : held.Pairwise (· < ·)) (hx : x ∈ held) (ha : a ∈ held.drop n)
    (hax : a ≤ x) : x ∈ held.drop n := by
  rw [← List.take_append_drop n held] at hs hx
  rcases List.mem_append.mp hx with htake | hdrop
  · exact absurd hax (not_le.mpr ((List.pairwise_append.mp hs).2.2 x htake a ha))
  · exact hdrop

theorem mem_take_of_le (hs : held.Pairwise (· < ·)) (hx : x ∈ held) (hb : b ∈ held.take n)
    (hxb : x ≤ b) : x ∈ held.take n := by
  rw [← List.take_append_drop n held] at hs hx
  rcases List.mem_append.mp hx with htake | hdrop
  · exact htake
  · exact absurd hxb (not_le.mpr ((List.pairwise_append.mp hs).2.2 b hb x hdrop))

theorem ToEnd.drop (h : ToEnd all held) (hs : held.Pairwise (· < ·)) (n : ℕ) :
    ToEnd all (held.drop n) := fun x hx a ha hax =>
  mem_drop_of_le hs (h x hx a (List.mem_of_mem_drop ha) hax) ha hax

theorem NoGap.drop (h : NoGap all held) (hs : held.Pairwise (· < ·)) (n : ℕ) :
    NoGap all (held.drop n) := fun x hx a ha b hb hax hxb =>
  mem_drop_of_le hs (h x hx a (List.mem_of_mem_drop ha) b (List.mem_of_mem_drop hb) hax hxb) ha hax

theorem NoGap.take (h : NoGap all held) (hs : held.Pairwise (· < ·)) (n : ℕ) :
    NoGap all (held.take n) := fun x hx a ha b hb hax hxb =>
  mem_take_of_le hs (h x hx a (List.mem_of_mem_take ha) b (List.mem_of_mem_take hb) hax hxb) hb hxb

omit [LinearOrder α] in
/-- The greatest of an ascending list, as many as there are or are asked for, downwards. -/
theorem mem_reverse_take (n : ℕ) : x ∈ all.reverse.take n ↔ x ∈ all.drop (all.length - n) := by
  rw [List.take_reverse, List.mem_reverse]

theorem mem_reverse_take_of_le (hs : all.Pairwise (· < ·)) (hx : x ∈ all)
    (ha : a ∈ all.reverse.take n) (hax : a ≤ x) : x ∈ all.reverse.take n := by
  rw [mem_reverse_take] at ha ⊢
  exact mem_drop_of_le hs hx ha hax

omit [LinearOrder α] in
/-- Fewer than were asked for are all there are. -/
theorem mem_take_of_short (hshort : (all.take n).length < n) (hx : x ∈ all) : x ∈ all.take n := by
  rw [List.length_take] at hshort
  rw [List.take_of_length_le (by omega)]
  exact hx

end Sorted

end Stretch
