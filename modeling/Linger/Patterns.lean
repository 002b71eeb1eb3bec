import Mathlib.Computability.Language
import Mathlib.Tactic.Common

/-! Patterns over the elements of a list, as a regular expression has them, with classes of elements
for its letters. A pattern is run by its derivatives, and what it accepts is a language. -/
namespace Patterns
open scoped Computability

universe u
variable {α : Type u}

inductive Pattern (α : Type u)
  | never
  | empty
  | one (holds : α → Bool)
  | seq (first second : Pattern α)
  | either (first second : Pattern α)
  | many (part : Pattern α)

namespace Pattern

/-- The lists a pattern is about. -/
@[simp] def language : Pattern α → Language α
  | never => 0
  | empty => 1
  | one holds => {x | ∃ a, x = [a] ∧ holds a = true}
  | seq first second => first.language * second.language
  | either first second => first.language + second.language
  | many part => part.language∗

@[simp] def nullable : Pattern α → Bool
  | never => false
  | empty => true
  | one _ => false
  | seq first second => first.nullable && second.nullable
  | either first second => first.nullable || second.nullable
  | many _ => true

/-- What is left of a pattern after an element. -/
@[simp] def deriv (a : α) : Pattern α → Pattern α
  | never => never
  | empty => never
  | one holds => if holds a then empty else never
  | seq first second =>
    if first.nullable then either (seq (first.deriv a) second) (second.deriv a)
      else seq (first.deriv a) second
  | either first second => either (first.deriv a) (second.deriv a)
  | many part => seq (part.deriv a) (many part)

/-- Whether the pattern stands for the whole list. -/
@[simp] def accepts (p : Pattern α) : List α → Bool
  | [] => p.nullable
  | a :: x => (p.deriv a).accepts x

/-- The list without the leftmost match that reaches its end. -/
@[simp] def dropEnd (p : Pattern α) : List α → List α
  | [] => []
  | a :: x => if p.accepts (a :: x) then [] else a :: p.dropEnd x

def maybe (p : Pattern α) : Pattern α := either p empty

@[simp] def times (p : Pattern α) : ℕ → Pattern α
  | 0 => empty
  | n + 1 => seq p (p.times n)

@[simp] def upTo (p : Pattern α) : ℕ → Pattern α
  | 0 => empty
  | n + 1 => maybe (seq p (p.upTo n))

/-- `p{low,}`. -/
def atLeast (p : Pattern α) (low : ℕ) : Pattern α := seq (p.times low) (many p)

/-- `p{low,high}`. -/
def between (p : Pattern α) (low high : ℕ) : Pattern α := seq (p.times low) (p.upTo (high - low))

/-- The elements of a list, in order. -/
@[simp] def literal [DecidableEq α] : List α → Pattern α
  | [] => empty
  | a :: x => seq (one (· = a)) (literal x)

variable {p q : Pattern α} {holds : α → Bool} {a : α} {x y z : List α} {n low high : ℕ}

section Language

theorem nullable_iff : p.nullable = true ↔ [] ∈ p.language := by
  induction p with
  | never => simp [nullable, language]
  | empty => simp [nullable, language]
  | one holds =>
    constructor
    · intro h
      cases h
    · rintro ⟨a, ha, -⟩
      cases ha
  | seq first second ihfirst ihsecond =>
    rw [nullable, Bool.and_eq_true, ihfirst, ihsecond, language, Language.mem_mul]
    constructor
    · rintro ⟨hfirst, hsecond⟩
      exact ⟨[], hfirst, [], hsecond, rfl⟩
    · rintro ⟨y, hy, z, hz, hyz⟩
      obtain ⟨rfl, rfl⟩ := List.append_eq_nil_iff.mp hyz
      exact ⟨hy, hz⟩
  | either first second ihfirst ihsecond =>
    rw [nullable, Bool.or_eq_true, ihfirst, ihsecond, language, Language.mem_add]
  | many part _ => exact ⟨fun _ => Language.nil_mem_kstar part.language, fun _ => rfl⟩

/-- A list of a star's parts that is not empty starts with a part that is not empty. -/
theorem cons_mem_kstar {l : Language α} :
    a :: x ∈ l∗ ↔ ∃ y z, a :: y ∈ l ∧ z ∈ l∗ ∧ x = y ++ z := by
  constructor
  · intro h
    obtain ⟨parts, hx, hparts⟩ := Language.mem_kstar_iff_exists_nonempty.mp h
    -- The first of the parts holds the first element, since none is empty.
    cases parts with
    | nil => cases hx
    | cons part parts =>
      obtain ⟨hpart, hne⟩ := hparts part List.mem_cons_self
      cases part with
      | nil => exact absurd rfl hne
      | cons b y =>
        rw [List.flatten_cons, List.cons_append, List.cons.injEq] at hx
        have hrest : parts.flatten ∈ l∗ :=
          Language.join_mem_kstar fun part hin => (hparts part (List.mem_cons_of_mem _ hin)).1
        exact ⟨y, parts.flatten, hx.1 ▸ hpart, hrest, hx.2⟩
  · rintro ⟨y, z, hy, hz, rfl⟩
    obtain ⟨parts, rfl, hparts⟩ := Language.mem_kstar.mp hz
    apply Language.mem_kstar.mpr
    exact ⟨(a :: y) :: parts, rfl, List.forall_mem_cons.mpr ⟨hy, hparts⟩⟩

theorem mem_deriv : x ∈ (p.deriv a).language ↔ a :: x ∈ p.language := by
  induction p generalizing x with
  | never => exact Iff.rfl
  | empty => simp [deriv, language]
  | one holds =>
    have hone : a :: x ∈ (one holds).language ↔ x = [] ∧ holds a = true := by
      constructor
      · rintro ⟨b, hb, hholds⟩
        rw [List.cons.injEq] at hb
        exact ⟨hb.2, hb.1 ▸ hholds⟩
      · rintro ⟨rfl, hholds⟩
        exact ⟨a, rfl, hholds⟩
    rw [hone, deriv]
    split
    · next hholds => simp [language, hholds]
    · next hholds => simp [language, hholds]
  | seq first second ihfirst ihsecond =>
    -- The element is the first pattern's, or that pattern stands for nothing and it is the
    -- second's.
    have hseq : a :: x ∈ (seq first second).language ↔
        x ∈ (seq (first.deriv a) second).language ∨
          (first.nullable = true ∧ a :: x ∈ second.language) := by
      rw [language, language, Language.mem_mul, Language.mem_mul, nullable_iff]
      constructor
      · rintro ⟨y, hy, z, hz, hyz⟩
        cases y with
        | nil => exact Or.inr ⟨hy, hyz ▸ hz⟩
        | cons b y =>
          rw [List.cons_append, List.cons.injEq] at hyz
          exact Or.inl ⟨y, ihfirst.mpr (hyz.1 ▸ hy), z, hz, hyz.2⟩
      · rintro (⟨y, hy, z, hz, rfl⟩ | ⟨hnil, hz⟩)
        · exact ⟨a :: y, ihfirst.mp hy, z, hz, rfl⟩
        · exact ⟨[], hnil, a :: x, hz, rfl⟩
    rw [hseq, deriv]
    split
    · next hnull =>
      have heither : x ∈ (either (seq (first.deriv a) second) (second.deriv a)).language ↔
          x ∈ (seq (first.deriv a) second).language ∨ x ∈ (second.deriv a).language := Iff.rfl
      rw [heither, ihsecond, and_iff_right hnull]
    · next hnull => rw [or_iff_left fun h => hnull h.1]
  | either first second ihfirst ihsecond =>
    rw [deriv, language, language, Language.mem_add, Language.mem_add, ihfirst, ihsecond]
  | many part ih =>
    rw [deriv, language, language, cons_mem_kstar, Language.mem_mul]
    constructor
    · rintro ⟨y, hy, z, hz, rfl⟩
      exact ⟨y, z, ih.mp hy, hz, rfl⟩
    · rintro ⟨y, z, hy, hz, rfl⟩
      exact ⟨y, ih.mpr hy, z, hz, rfl⟩

theorem accepts_iff : p.accepts x = true ↔ x ∈ p.language := by
  -- The pattern changes as the list is read, so the induction is for all patterns at once.
  induction x generalizing p with
  | nil => exact nullable_iff
  | cons a x ih => rw [accepts, ih, mem_deriv]

theorem mem_seq : x ∈ (seq p q).language ↔ ∃ y z, y ∈ p.language ∧ z ∈ q.language ∧ x = y ++ z := by
  rw [language, Language.mem_mul]
  constructor
  · rintro ⟨y, hy, z, hz, rfl⟩
    exact ⟨y, z, hy, hz, rfl⟩
  · rintro ⟨y, z, hy, hz, rfl⟩
    exact ⟨y, hy, z, hz, rfl⟩

theorem mem_either : x ∈ (either p q).language ↔ x ∈ p.language ∨ x ∈ q.language := Iff.rfl

theorem mem_maybe : x ∈ p.maybe.language ↔ x ∈ p.language ∨ x = [] := Iff.rfl

theorem mem_one : x ∈ (one holds).language ↔ ∃ a, x = [a] ∧ holds a = true := Iff.rfl

theorem mem_one_seq :
    x ∈ (seq (one holds) q).language ↔ ∃ a y, x = a :: y ∧ holds a = true ∧ y ∈ q.language := by
  rw [mem_seq]
  constructor
  · rintro ⟨first, rest, ⟨a, rfl, ha⟩, hrest, rfl⟩
    exact ⟨a, rest, rfl, ha, hrest⟩
  · rintro ⟨a, rest, rfl, ha, hrest⟩
    exact ⟨[a], rest, ⟨a, rfl, ha⟩, hrest, rfl⟩

theorem mem_literal [DecidableEq α] : x ∈ (literal y).language ↔ x = y := by
  induction y generalizing x with
  | nil => exact Language.mem_one x
  | cons b y ih =>
    rw [literal, mem_one_seq]
    constructor
    · rintro ⟨a, rest, rfl, ha, hrest⟩
      rw [ih.mp hrest, of_decide_eq_true ha]
    · rintro rfl
      exact ⟨b, y, rfl, decide_eq_true rfl, ih.mpr rfl⟩

end Language

section Classes

theorem mem_many_one : x ∈ (many (one holds)).language ↔ ∀ a ∈ x, holds a = true := by
  induction x with
  | nil => exact ⟨fun _ => by simp, fun _ => Language.nil_mem_kstar _⟩
  | cons b x ih =>
    rw [List.forall_mem_cons, ← ih, language, cons_mem_kstar]
    constructor
    · rintro ⟨y, z, ⟨a, ha, hholds⟩, hz, rfl⟩
      obtain ⟨rfl, rfl⟩ := List.cons.inj ha
      exact ⟨hholds, hz⟩
    · rintro ⟨hb, hx⟩
      exact ⟨[], x, ⟨b, rfl, hb⟩, hx, rfl⟩

theorem mem_times_one :
    x ∈ ((one holds).times n).language ↔ x.length = n ∧ ∀ a ∈ x, holds a = true := by
  induction n generalizing x with
  | zero =>
    rw [times, language, Language.mem_one, List.length_eq_zero_iff]
    exact ⟨fun h => ⟨h, by simp [h]⟩, fun h => h.1⟩
  | succ n ih =>
    rw [times, mem_one_seq]
    constructor
    · rintro ⟨a, rest, rfl, ha, hrest⟩
      obtain ⟨hlength, hall⟩ := ih.mp hrest
      exact ⟨by simp [hlength], List.forall_mem_cons.mpr ⟨ha, hall⟩⟩
    · rintro ⟨hlength, hall⟩
      cases x with
      | nil => cases hlength
      | cons a x =>
        rw [List.forall_mem_cons] at hall
        exact ⟨a, x, rfl, hall.1, ih.mpr ⟨Nat.succ.inj hlength, hall.2⟩⟩

theorem mem_upTo_one :
    x ∈ ((one holds).upTo n).language ↔ x.length ≤ n ∧ ∀ a ∈ x, holds a = true := by
  induction n generalizing x with
  | zero =>
    rw [upTo, language, Language.mem_one, Nat.le_zero, List.length_eq_zero_iff]
    exact ⟨fun h => ⟨h, by simp [h]⟩, fun h => h.1⟩
  | succ n ih =>
    rw [upTo, mem_maybe, mem_one_seq]
    constructor
    · rintro (⟨a, rest, rfl, ha, hrest⟩ | rfl)
      · obtain ⟨hlength, hall⟩ := ih.mp hrest
        exact ⟨Nat.succ_le_succ hlength, List.forall_mem_cons.mpr ⟨ha, hall⟩⟩
      · exact ⟨Nat.zero_le _, by simp⟩
    · rintro ⟨hlength, hall⟩
      cases x with
      | nil => exact Or.inr rfl
      | cons a x =>
        rw [List.forall_mem_cons] at hall
        exact Or.inl ⟨a, x, rfl, hall.1, ih.mpr ⟨Nat.le_of_succ_le_succ hlength, hall.2⟩⟩

/-- A list of a class is cut after as many elements as are asked for. -/
theorem mem_times_seq (hrest : ∀ y, y ∈ q.language → ∀ a ∈ y, holds a = true) :
    x ∈ (seq ((one holds).times low) q).language ↔
      low ≤ x.length ∧ (∀ a ∈ x, holds a = true) ∧ x.drop low ∈ q.language := by
  rw [mem_seq]
  constructor
  · rintro ⟨y, z, hy, hz, rfl⟩
    obtain ⟨hlength, hall⟩ := mem_times_one.mp hy
    have hdrop : (y ++ z).drop low = z := by rw [← hlength, List.drop_left]
    rw [hdrop, List.length_append]
    exact ⟨by omega, List.forall_mem_append.mpr ⟨hall, hrest z hz⟩, hz⟩
  · rintro ⟨hlength, hall, hq⟩
    have htake : (x.take low).length = low := by
      rw [List.length_take]
      omega
    have hfirst := mem_times_one.mpr ⟨htake, fun a ha => hall a (List.mem_of_mem_take ha)⟩
    exact ⟨x.take low, x.drop low, hfirst, hq, (List.take_append_drop low x).symm⟩

theorem mem_atLeast_one :
    x ∈ ((one holds).atLeast low).language ↔ low ≤ x.length ∧ ∀ a ∈ x, holds a = true := by
  rw [atLeast, mem_times_seq fun y hy => mem_many_one.mp hy, mem_many_one]
  constructor
  · rintro ⟨hlength, hall, -⟩
    exact ⟨hlength, hall⟩
  · rintro ⟨hlength, hall⟩
    exact ⟨hlength, hall, fun a ha => hall a (List.mem_of_mem_drop ha)⟩

theorem mem_between_one (hle : low ≤ high) : x ∈ ((one holds).between low high).language ↔
    (low ≤ x.length ∧ x.length ≤ high) ∧ ∀ a ∈ x, holds a = true := by
  rw [between, mem_times_seq fun y hy => (mem_upTo_one.mp hy).2, mem_upTo_one, List.length_drop]
  constructor
  · rintro ⟨hlow, hall, hhigh, -⟩
    exact ⟨by omega, hall⟩
  · rintro ⟨hlength, hall⟩
    exact ⟨hlength.1, hall, by omega, fun a ha => hall a (List.mem_of_mem_drop ha)⟩

end Classes

section Ends

/-- The leftmost match is the longest one. -/
theorem dropEnd_append (hz : z ≠ []) (haccepts : p.accepts z = true)
    (hfirst : ∀ before after, y = before ++ after → after ≠ [] → p.accepts (after ++ z) = false) :
    p.dropEnd (y ++ z) = y := by
  induction y with
  | nil =>
    cases z with
    | nil => exact absurd rfl hz
    | cons a z => rw [List.nil_append, dropEnd, if_pos haccepts]
  | cons a y ih =>
    have hnot := hfirst [] (a :: y) rfl (by simp)
    have hrest : p.dropEnd (y ++ z) = y := by
      apply ih
      intro before after hy
      exact hfirst (a :: before) after (by rw [hy]; rfl)
    rw [List.cons_append] at hnot ⊢
    rw [dropEnd, if_neg (Bool.eq_false_iff.mp hnot), hrest]

theorem dropEnd_none
    (h : ∀ before after, x = before ++ after → after ≠ [] → p.accepts after = false) :
    p.dropEnd x = x := by
  induction x with
  | nil => rfl
  | cons a x ih =>
    have hnot := h [] (a :: x) rfl (by simp)
    have hrest : p.dropEnd x = x := by
      apply ih
      intro before after hx
      exact h (a :: before) after (by rw [hx]; rfl)
    rw [dropEnd, if_neg (Bool.eq_false_iff.mp hnot), hrest]

/-- A single element at the end, or none. -/
theorem dropEnd_one_append (ha : holds a = true) : (one holds).dropEnd (x ++ [a]) = x := by
  apply dropEnd_append (by simp) (accepts_iff.mpr (mem_one.mpr ⟨a, rfl, ha⟩))
  intro before after _ hafter
  apply Bool.eq_false_iff.mpr
  intro haccepts
  obtain ⟨b, hb, -⟩ := accepts_iff.mp haccepts
  have hlength := congrArg List.length hb
  have hpositive := List.length_pos_iff.mpr hafter
  rw [List.length_append, List.length_singleton, List.length_singleton] at hlength
  omega

theorem dropEnd_one_none (h : ∀ a ∈ x.getLast?, holds a = false) : (one holds).dropEnd x = x := by
  apply dropEnd_none
  rintro before after rfl -
  apply Bool.eq_false_iff.mpr
  intro haccepts
  obtain ⟨b, rfl, hb⟩ := accepts_iff.mp haccepts
  rw [h b (by simp)] at hb
  cases hb

end Ends

end Pattern
end Patterns
