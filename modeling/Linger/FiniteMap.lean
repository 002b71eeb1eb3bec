import Mathlib.Tactic.Linarith
import Mathlib.Data.List.MinMax
import Mathlib.Data.List.Perm.Basic
import Mathlib.Data.Finset.Basic

/-! Finite maps in the order of their keys, and the element of a list that is
greatest by a key, the last one of equals. -/
namespace FiniteMap

universe u v w
variable {κ : Type u} {β : Type v} {γ : Type w} [Ord κ] [Std.TransOrd κ] [Std.LawfulEqOrd κ]

abbrev FMap (κ : Type u) (β : Type v) [Ord κ] := Std.ExtTreeMap κ β compare

section Lookup
variable [DecidableEq κ]

theorem insert_at (m : FMap κ β) (k a : κ) (b : β) :
    (m.insert k b)[a]? = if a = k then some b else m[a]? := by
  rw [Std.ExtTreeMap.getElem?_insert]
  by_cases h : a = k
  · simp [h]
  · simp [h, Ne.symm h]

theorem erase_at (m : FMap κ β) (k a : κ) :
    (m.erase k)[a]? = if a = k then none else m[a]? := by
  rw [Std.ExtTreeMap.getElem?_erase]
  by_cases h : a = k
  · simp [h]
  · simp [h, Ne.symm h]

theorem alter_at (m : FMap κ β) (k a : κ) (f : Option β → Option β) :
    (m.alter k f)[a]? = if a = k then f m[k]? else m[a]? := by
  rw [Std.ExtTreeMap.getElem?_alter]
  by_cases h : a = k
  · simp [h]
  · simp [h, Ne.symm h]

theorem insert_insert (m : FMap κ β) (k : κ) (b c : β) :
    (m.insert k b).insert k c = m.insert k c := by
  apply Std.ExtTreeMap.ext_getElem?
  intro a
  rw [insert_at, insert_at, insert_at]
  split
  · rfl
  · rfl

/-- One value under each of these keys. -/
theorem insert_all_at (m : FMap κ β) (b : β) (keys : List κ) (a : κ) :
    (keys.foldl (fun m k => m.insert k b) m)[a]? = if a ∈ keys then some b else m[a]? := by
  induction keys generalizing m with
  | nil => simp
  | cons k keys ih =>
    rw [List.foldl_cons, ih, insert_at]
    by_cases hk : a = k
    · simp [hk]
    · simp [hk]

theorem erase_all_at (m : FMap κ β) (keys : List κ) (a : κ) :
    (keys.foldl (fun m k => m.erase k) m)[a]? = if a ∈ keys then none else m[a]? := by
  induction keys generalizing m with
  | nil => simp
  | cons k keys ih =>
    rw [List.foldl_cons, ih, erase_at]
    by_cases hk : a = k
    · simp [hk]
    · simp [hk]

theorem insert_ne_empty (m : FMap κ β) (k : κ) (b : β) : m.insert k b ≠ ∅ := by
  intro h
  have hk := insert_at m k k b
  rw [h] at hk
  simp at hk

end Lookup

def vals (m : FMap κ β) : List β := m.toList.map Prod.snd

theorem mem_vals (m : FMap κ β) (b : β) : b ∈ vals m ↔ ∃ k : κ, m[k]? = some b := by
  simp only [vals, List.mem_map, Prod.exists, Std.ExtTreeMap.mem_toList_iff_getElem?_eq_some]
  exact exists_congr fun k => by simp

omit [Std.LawfulEqOrd κ] in
theorem vals_map (m : FMap κ β) (f : β → γ) : vals (m.map fun _ b => f b) = (vals m).map f := by
  simp only [vals, Std.ExtTreeMap.toList_map, List.map_map]
  rfl

theorem vals_eq_nil (m : FMap κ β) : vals m = [] ↔ m = ∅ := by
  constructor
  · intro h
    ext k b
    have hn (c : β) : m[k]? ≠ some c := fun hc => by
      have := (mem_vals m c).mpr ⟨k, hc⟩
      rw [h] at this
      exact absurd this List.not_mem_nil
    simpa using hn b
  · rintro rfl
    simp [vals]

/-- Two maps that agree on what `f` keeps of each value list the same kept values. -/
theorem vals_map_congr (m n : FMap κ β) (f : β → γ)
    (h : ∀ k : κ, (m[k]?).map f = (n[k]?).map f) : (vals m).map f = (vals n).map f := by
  have he : m.map (fun _ b => f b) = n.map (fun _ b => f b) := by
    ext1 k
    simpa using h k
  rw [← vals_map, ← vals_map, he]

omit [Std.LawfulEqOrd κ] in
theorem vals_filterMap (m : FMap κ β) (f : β → Option γ) :
    vals (m.filterMap fun _ b => f b) = (vals m).filterMap f := by
  simp only [vals, Std.ExtTreeMap.toList_filterMap, List.map_filterMap, List.filterMap_map]
  refine List.filterMap_congr fun e _ => ?_
  simp

/-- Two maps in which `f` and `g` read the same off each key list the same of it. -/
theorem vals_filterMap_congr {m : FMap κ β} {n : FMap κ γ} {δ : Type*} (f : β → Option δ)
    (g : γ → Option δ) (h : ∀ k : κ, (m[k]?).bind f = (n[k]?).bind g) :
    (vals m).filterMap f = (vals n).filterMap g := by
  have he : m.filterMap (fun _ b => f b) = n.filterMap (fun _ c => g c) := by
    ext1 k
    simpa using h k
  rw [← vals_filterMap, ← vals_filterMap, he]

section Modify
variable [DecidableEq κ]

theorem modify_at (m : FMap κ β) (k a : κ) (f : β → β) :
    (m.modify k f)[a]? = if a = k then (m[a]?).map f else m[a]? := by
  rw [Std.ExtTreeMap.getElem?_modify]
  by_cases h : a = k
  · simp [h]
  · simp [h, Ne.symm h]

theorem modify_of_none {m : FMap κ β} {k : κ} (h : m[k]? = none) (f : β → β) :
    m.modify k f = m := by
  ext1 a
  rw [modify_at]
  split
  · next ha => rw [ha, h, Option.map_none]
  · rfl

theorem modify_of_some {m : FMap κ β} {k : κ} {b : β} (h : m[k]? = some b) (f : β → β) :
    m.modify k f = m.insert k (f b) := by
  ext1 a
  rw [modify_at, insert_at]
  split
  · next ha => rw [ha, h, Option.map_some]
  · rfl

theorem insert_of_at {m : FMap κ β} {k : κ} {b : β} (h : m[k]? = some b) : m.insert k b = m := by
  ext1 a
  rw [insert_at]
  split
  · next ha => rw [ha, h]
  · rfl

/-- Going over keys that are each visited once. -/
theorem foldl_modify_at (f : κ → β → β) {l : List κ} (hl : l.Nodup) (m : FMap κ β) (a : κ) :
    (l.foldl (fun m k => m.modify k (f k)) m)[a]? = if a ∈ l then (m[a]?).map (f a) else m[a]? := by
  induction l generalizing m with
  | nil => simp
  | cons k l ih =>
    obtain ⟨hk, hl⟩ := List.nodup_cons.mp hl
    rw [List.foldl_cons, ih hl, modify_at]
    by_cases ha : a = k
    · subst ha
      simp [hk]
    · simp [ha]

end Modify

section Total
variable [DecidableEq κ]

theorem toList_insert_perm (m : FMap κ β) (k : κ) (b : β) :
    (m.insert k b).toList.Perm ((k, b) :: (m.erase k).toList) := by
  have hnodup (n : FMap κ β) : n.toList.Nodup := by
    refine n.distinct_keys_toList.imp fun {e e'} hne he => hne ?_
    rw [he]
    exact Std.ReflCmp.compare_self
  have hnew : (k, b) ∉ (m.erase k).toList := by
    intro hmem
    rw [Std.ExtTreeMap.mem_toList_iff_getElem?_eq_some, erase_at, if_pos rfl] at hmem
    cases hmem
  apply (List.perm_ext_iff_of_nodup (hnodup _) (List.nodup_cons.mpr ⟨hnew, hnodup _⟩)).mpr
  intro ⟨a, c⟩
  rw [List.mem_cons, Std.ExtTreeMap.mem_toList_iff_getElem?_eq_some,
    Std.ExtTreeMap.mem_toList_iff_getElem?_eq_some, insert_at, erase_at, Prod.mk.injEq]
  by_cases ha : a = k
  · simp [ha, eq_comm]
  · simp [ha]

/-- What all the values weigh together. -/
def total (w : β → ℕ) (m : FMap κ β) : ℕ := ((vals m).map w).sum

omit [Std.LawfulEqOrd κ] [DecidableEq κ] in
theorem total_filter (w : β → ℕ) (p : β → Bool) (m : FMap κ β) :
    (((vals m).filter p).map w).sum = total (fun b => if p b then w b else 0) m := by
  rw [total]
  induction vals m with
  | nil => rfl
  | cons b bs ih => cases hp : p b <;> simp [hp, ih]

theorem total_insert (w : β → ℕ) (m : FMap κ β) (k : κ) (b : β) :
    total w (m.insert k b) = w b + total w (m.erase k) := by
  rw [total, vals, (((toList_insert_perm m k b).map Prod.snd).map w).sum_nat]
  rfl

theorem total_of_at (w : β → ℕ) {m : FMap κ β} {k : κ} {b : β} (h : m[k]? = some b) :
    total w m = w b + total w (m.erase k) := by
  rw [← total_insert, insert_of_at h]

theorem total_erase_le (w : β → ℕ) (m : FMap κ β) (k : κ) : total w (m.erase k) ≤ total w m := by
  cases h : m[k]? with
  | some b =>
    rw [total_of_at w h]
    exact Nat.le_add_left _ _
  | none =>
    have hsame : m.erase k = m := by
      ext1 a
      rw [erase_at]
      split
      · next ha => rw [ha, h]
      · rfl
    rw [hsame]

theorem total_modify (w : β → ℕ) {m : FMap κ β} {k : κ} {b : β} (h : m[k]? = some b) (f : β → β) :
    total w (m.modify k f) + w b = total w m + w (f b) := by
  rw [modify_of_some h, total_insert, total_of_at w h]
  omega

end Total

theorem nodup_keys (m : FMap κ β) (p : κ × β → Bool) :
    ((m.toList.filter p).map Prod.fst).Nodup := by
  have hd := m.distinct_keys_toList
  rw [List.Nodup, List.pairwise_map]
  refine (hd.filter p).imp fun {a b} hab heq => hab ?_
  rw [heq]
  exact Std.ReflCmp.compare_self

theorem mem_keys (m : FMap κ β) (p : κ × β → Bool) (k : κ) :
    k ∈ (m.toList.filter p).map Prod.fst ↔ ∃ b, m[k]? = some b ∧ p (k, b) = true := by
  simp only [List.mem_map, List.mem_filter, Prod.exists,
    Std.ExtTreeMap.mem_toList_iff_getElem?_eq_some]
  constructor
  · rintro ⟨a, b, ⟨hb, hp⟩, rfl⟩
    exact ⟨b, hb, hp⟩
  · rintro ⟨b, hb, hp⟩
    exact ⟨k, b, ⟨hb, hp⟩, rfl⟩

/-- The element with the greatest key, the last of those that share it. -/
def maxByKey (f : β → ℕ) (xs : List β) : Option β := xs.reverse.argmax f

theorem maxByKey_nil (f : β → ℕ) : maxByKey f [] = none := rfl

theorem maxByKey_mem {f : β → ℕ} {xs : List β} {b : β} (h : maxByKey f xs = some b) : b ∈ xs :=
  List.mem_reverse.mp (List.argmax_mem h)

theorem le_of_maxByKey {f : β → ℕ} {xs : List β} {a b : β} (h : maxByKey f xs = some b)
    (ha : a ∈ xs) : f a ≤ f b :=
  List.le_of_mem_argmax (List.mem_reverse.mpr ha) h

theorem maxByKey_eq_none {f : β → ℕ} {xs : List β} : maxByKey f xs = none ↔ xs = [] := by
  rw [maxByKey, List.argmax_eq_none, List.reverse_eq_nil_iff]

/-- With keys that tell the elements apart, the order of the list does not matter. -/
theorem maxByKey_perm {f : β → ℕ} {xs ys : List β} (hp : xs.Perm ys)
    (hi : ∀ a ∈ xs, ∀ b ∈ xs, f a = f b → a = b) : maxByKey f xs = maxByKey f ys := by
  cases hx : maxByKey f xs with
  | none =>
    rw [maxByKey_eq_none.mp hx] at hp
    rw [List.nil_perm.mp hp, maxByKey_nil]
  | some a =>
    cases hy : maxByKey f ys with
    | none =>
      rw [maxByKey_eq_none.mp hy, List.perm_nil] at hp
      rw [hp, maxByKey_nil] at hx
      cases hx
    | some b =>
      have ha := maxByKey_mem hx
      have hb := hp.mem_iff.mpr (maxByKey_mem hy)
      have h1 := le_of_maxByKey hx hb
      have h2 := le_of_maxByKey hy (hp.mem_iff.mp ha)
      rw [hi a ha b hb (le_antisymm h2 h1)]

theorem maxByKey_map {f : γ → ℕ} (g : β → γ) (xs : List β) :
    maxByKey f (xs.map g) = (maxByKey (f ∘ g) xs).map g := by
  have hstep (xs : List β) (o : Option β) :
      List.foldl (List.argAux fun b c => f c < f b) (o.map g) (xs.map g) =
        (List.foldl (List.argAux fun b c => (f ∘ g) c < (f ∘ g) b) o xs).map g := by
    induction xs generalizing o with
    | nil => rfl
    | cons x xs ih =>
      rw [List.map_cons, List.foldl_cons, List.foldl_cons, ← ih]
      congr 1
      cases o with
      | none => rfl
      | some y =>
        simp only [List.argAux, Option.map_some, Function.comp_apply]
        split <;> rfl
  rw [maxByKey, maxByKey, ← List.map_reverse]
  exact hstep xs.reverse none

end FiniteMap
