import Mathlib.Algebra.GroupWithZero.Nat
import Mathlib.Data.List.Sort

/-! A sorted list that is read in pages: what one page takes of it, where the pages end, and how
sources that are each sorted and cut off make the same page as all of them together. -/
namespace KeysetPages

universe u
variable {α : Type u}

section Sorted
variable {le lt : α → α → Prop} {xs ys : List α} {x : α}

theorem eq_of_pairwise_of_mem (hasymm : ∀ a b, lt a b → ¬ lt b a) (hx : xs.Pairwise lt)
    (hy : ys.Pairwise lt) (h : ∀ a, a ∈ xs ↔ a ∈ ys) : xs = ys := by
  have hnodup {zs : List α} (hz : zs.Pairwise lt) : zs.Nodup :=
    hz.imp fun hab he => by
      rw [he] at hab
      exact hasymm _ _ hab hab
  have hperm : xs.Perm ys := (List.perm_ext_iff_of_nodup (hnodup hx) (hnodup hy)).mpr h
  exact hperm.eq_of_pairwise (fun a b _ _ hab hba => absurd hba (hasymm a b hab)) hx hy

variable [DecidableRel le]

theorem pairwise_orderedInsert [IsTrans α le] (hlt : ∀ a b, ¬ le b a → lt a b)
    (hle : xs.Pairwise le) (hxs : xs.Pairwise lt) (hx : ∀ y ∈ xs, le x y → le y x → lt x y) :
    (xs.orderedInsert le x).Pairwise lt := by
  induction xs with
  | nil => simp
  | cons b xs ih =>
    rw [List.orderedInsert_cons]
    obtain ⟨hble, hle⟩ := List.pairwise_cons.mp hle
    obtain ⟨hblt, hxs⟩ := List.pairwise_cons.mp hxs
    split
    · next hxb =>
      refine List.pairwise_cons.mpr ⟨fun y hy => ?_, List.pairwise_cons.mpr ⟨hblt, hxs⟩⟩
      have hxy : le x y := by
        rcases List.mem_cons.mp hy with rfl | hmem
        · exact hxb
        · exact IsTrans.trans x b y hxb (hble y hmem)
      by_cases hyx : le y x
      · exact hx y hy hxy hyx
      · exact hlt x y hyx
    · next hxb =>
      refine List.pairwise_cons.mpr ⟨fun y hy => ?_, ih hle hxs fun y hy => hx y (.tail _ hy)⟩
      rcases (List.mem_orderedInsert le).mp hy with rfl | hmem
      · exact hlt b _ hxb
      · exact hblt y hmem

/-- A stable sort leaves equals as they were, so what tells them apart there does afterwards. -/
theorem pairwise_insertionSort [Std.Total le] [IsTrans α le] (hlt : ∀ a b, ¬ le b a → lt a b)
    (hxs : xs.Pairwise fun a b => le a b → le b a → lt a b) :
    (xs.insertionSort le).Pairwise lt := by
  induction xs with
  | nil => simp
  | cons x xs ih =>
    obtain ⟨hx, hxs⟩ := List.pairwise_cons.mp hxs
    rw [List.insertionSort_cons]
    apply pairwise_orderedInsert hlt (List.pairwise_insertionSort le xs) (ih hxs)
    intro y hy
    exact hx y ((List.mem_insertionSort le).mp hy)

end Sorted

section Limit
variable {lt : α → α → Prop} {xs ys : List α} {x : α} {n : ℕ}

theorem take_filter_of_take {p : α → Bool} (h : ∀ x ∈ xs.take n, p x = true) :
    (xs.filter p).take n = xs.take n := by
  have hsplit : xs.filter p = xs.take n ++ (xs.drop n).filter p := by
    conv_lhs => rw [← List.take_append_drop n xs, List.filter_append, List.filter_eq_self.mpr h]
  by_cases hlen : n ≤ xs.length
  · have htake : (xs.take n).length = n := by
      rw [List.length_take]
      omega
    rw [hsplit, List.take_append_of_le_length (le_of_eq htake.symm), List.take_take, min_self]
  · have hdrop : xs.drop n = [] := List.drop_eq_nil_of_le (by omega)
    rw [hsplit, hdrop, List.filter_nil, List.append_nil, List.take_take, min_self]

theorem mem_take_filter {p : α → Bool} (hx : x ∈ xs.take n) (hp : p x = true) :
    x ∈ (xs.filter p).take n := by
  have hprefix : (xs.take n).filter p <+: xs.filter p := (List.take_prefix n xs).filter p
  have hlen : ((xs.take n).filter p).length ≤ n := by
    have h1 := List.length_filter_le p (xs.take n)
    have h2 := List.length_take_le n xs
    omega
  have hmem : x ∈ (xs.take n).filter p := List.mem_filter.mpr ⟨hx, hp⟩
  rw [List.prefix_iff_eq_take.mp hprefix] at hmem
  exact (List.take_prefix_take_left hlen).subset hmem

/-- Each source is cut off after `n`, and so is what they make together: what it was cut off from
would have come later still. -/
theorem take_of_sources {sources : List (α → Bool)} (hasymm : ∀ a b, lt a b → ¬ lt b a)
    (hxs : xs.Pairwise lt) (hys : ys.Pairwise lt)
    (hsources : ∀ x ∈ xs, ∃ p ∈ sources, p x = true)
    (hmem : ∀ x, x ∈ ys ↔ ∃ p ∈ sources, x ∈ (xs.filter p).take n) : ys.take n = xs.take n := by
  classical
  have hsub (x : α) (hx : x ∈ ys) : x ∈ xs := by
    obtain ⟨p, -, hp⟩ := (hmem x).mp hx
    exact (List.mem_filter.mp (List.mem_of_mem_take hp)).1
  have heq : ys = xs.filter fun x => decide (x ∈ ys) := by
    apply eq_of_pairwise_of_mem hasymm hys (hxs.filter _)
    intro a
    simp only [List.mem_filter, decide_eq_true_eq]
    exact ⟨fun ha => ⟨hsub a ha, ha⟩, fun ha => ha.2⟩
  rw [heq]
  apply take_filter_of_take
  intro x hx
  obtain ⟨p, hp, hpx⟩ := hsources x (List.mem_of_mem_take hx)
  exact decide_eq_true ((hmem x).mpr ⟨p, hp, mem_take_filter hx hpx⟩)

end Limit

/-- Whole elements, each with its weight, until there are enough. -/
def page (weight : α → ℕ) (limit : ℕ) : ℕ → List α → List α
  | _, [] => []
  | n, x :: xs => if limit ≤ n then [] else x :: page weight limit (n + weight x) xs

/-- Where a page is full: its last element, and what is left after it. -/
def ends (weight : α → ℕ) (limit : ℕ) : ℕ → List α → List (α × List α)
  | _, [] => []
  | n, x :: xs =>
    if limit ≤ n + weight x then (x, xs) :: ends weight limit 0 xs
    else ends weight limit (n + weight x) xs

section Pages
variable {weight : α → ℕ} {limit n : ℕ} {xs ys : List α} {x : α}

theorem page_prefix : page weight limit n xs <+: xs := by
  induction xs generalizing n with
  | nil => exact List.prefix_rfl
  | cons x xs ih =>
    rw [page]
    split
    · exact List.nil_prefix
    · exact List.prefix_cons_inj x |>.mpr ih

theorem page_of_le (h : limit ≤ n) : page weight limit n xs = [] := by
  cases xs with
  | nil => rfl
  | cons x xs => rw [page, if_pos h]

/-- A page that isn't full took everything; one that is is as it would be whatever came after. -/
theorem page_cases (hn : n < limit) :
    (page weight limit n xs = xs ∧ n + (xs.map weight).sum < limit ∧ ends weight limit n xs = []) ∨
    ∃ ts x rest, xs = ts ++ x :: rest ∧ ∀ zs, page weight limit n (ts ++ x :: zs) = ts ++ [x] ∧
      ends weight limit n (ts ++ x :: zs) = (x, zs) :: ends weight limit 0 zs ∧
      limit ≤ n + ((ts ++ [x]).map weight).sum := by
  induction xs generalizing n with
  | nil => exact .inl ⟨rfl, by simpa using hn, rfl⟩
  | cons x xs ih =>
    by_cases hfull : limit ≤ n + weight x
    · refine .inr ⟨[], x, xs, rfl, fun zs => ⟨?_, ?_, ?_⟩⟩
      · rw [List.nil_append, page, if_neg (by omega), page_of_le hfull]
        rfl
      · rw [List.nil_append, ends, if_pos hfull]
      · simpa using hfull
    · have hlt : n + weight x < limit := by omega
      rcases ih hlt with ⟨hpage, hsum, hends⟩ | ⟨ts, y, rest, rfl, hts⟩
      · refine .inl ⟨?_, ?_, ?_⟩
        · rw [page, if_neg (by omega), hpage]
        · rw [List.map_cons, List.sum_cons]
          omega
        · rw [ends, if_neg hfull, hends]
      · refine .inr ⟨x :: ts, y, rest, rfl, fun zs => ?_⟩
        obtain ⟨hpage, hends, hsum⟩ := hts zs
        refine ⟨?_, ?_, ?_⟩
        · rw [List.cons_append, page, if_neg (by omega), hpage]
          rfl
        · rw [List.cons_append, ends, if_neg hfull, hends]
        · rw [List.cons_append, List.map_cons, List.sum_cons]
          omega

theorem ends_cons {e : α × List α} {es : List (α × List α)} (h : ends weight limit n xs = e :: es) :
    es = ends weight limit 0 e.2 := by
  induction xs generalizing n with
  | nil => cases h
  | cons x xs ih =>
    rw [ends] at h
    split at h
    · obtain ⟨rfl, rfl⟩ := List.cons_eq_cons.mp h
      rfl
    · exact ih h

theorem ends_split {e : α × List α} (h : e ∈ ends weight limit n xs) :
    ∃ ts, xs = ts ++ e.1 :: e.2 := by
  induction xs generalizing n with
  | nil => cases h
  | cons x xs ih =>
    have hlater {k : ℕ} (h : e ∈ ends weight limit k xs) : ∃ ts, x :: xs = ts ++ e.1 :: e.2 := by
      obtain ⟨ts, rfl⟩ := ih h
      exact ⟨x :: ts, rfl⟩
    rw [ends] at h
    split at h
    · rcases List.mem_cons.mp h with rfl | h
      · exact ⟨[], rfl⟩
      · exact hlater h
    · exact hlater h

/-- A page that isn't full goes on with what comes after. -/
theorem page_append (h : n + (xs.map weight).sum < limit) :
    page weight limit n (xs ++ ys) = xs ++ page weight limit (n + (xs.map weight).sum) ys := by
  induction xs generalizing n with
  | nil => rfl
  | cons x xs ih =>
    rw [List.map_cons, List.sum_cons] at h ⊢
    rw [List.cons_append, page, if_neg (by omega), ih (by omega), List.cons_append, ← Nat.add_assoc]

/-- A page that is filled exactly. -/
theorem page_exact (hweight : ∀ x ∈ xs, 0 < weight x) (h : n + (xs.map weight).sum = limit) :
    page weight limit n (xs ++ ys) = xs := by
  induction xs generalizing n with
  | nil => exact page_of_le (by simpa using h.ge)
  | cons x xs ih =>
    rw [List.map_cons, List.sum_cons] at h
    have hx := hweight x (.head _)
    rw [List.cons_append, page, if_neg (by omega),
      ih (fun y hy => hweight y (.tail _ hy)) (by omega)]

/-- With a weight each, no more than the limit are looked at. -/
theorem page_take {m : ℕ} (hweight : ∀ x ∈ xs, 0 < weight x) (hm : limit ≤ n + m) :
    page weight limit n (xs.take m) = page weight limit n xs := by
  induction xs generalizing n m with
  | nil => simp
  | cons x xs ih =>
    by_cases hn : limit ≤ n
    · rw [page_of_le hn, page_of_le hn]
    · obtain ⟨k, rfl⟩ : ∃ k, m = k + 1 := ⟨m - 1, by omega⟩
      have hx := hweight x (.head _)
      rw [List.take_succ_cons, page, page, if_neg hn, if_neg hn]
      exact congrArg (x :: ·) (ih (fun y hy => hweight y (.tail _ hy)) (by omega))

end Pages

end KeysetPages
