import Mathlib.Tactic.Common

/-! Sequences of entering and leaving, one place at a time. -/
namespace Brackets

universe u
variable {ρ : Type u}

inductive Mark (ρ : Type u)
  | enter (r : ρ)
  | leave (r : ρ)
  deriving DecidableEq, Repr

section Walk
variable [DecidableEq ρ]

/-- Where one stands after the marks, from where one stood. No place twice at
once, and no leaving of one not stood in. -/
def walk : Option ρ → List (Mark ρ) → Option (Option ρ)
  | at?, [] => some at?
  | none, .enter r :: ms => walk (some r) ms
  | some r, .leave r' :: ms => if r' = r then walk none ms else none
  | none, .leave _ :: _ => none
  | some _, .enter _ :: _ => none

theorem walk_append (p : Option ρ) (ms ns : List (Mark ρ)) :
    walk p (ms ++ ns) = (walk p ms).bind fun q => walk q ns := by
  induction p, ms using walk.induct with
  | case1 p => rfl
  | case2 r ms ih => simpa only [List.cons_append, walk] using ih
  | case3 r ms ih => simpa only [List.cons_append, walk, if_true] using ih
  | case4 r r' ms h => simp only [List.cons_append, walk, if_neg h, Option.bind_none]
  | case5 r ms => rfl
  | case6 r r' ms => rfl

/-- Leaving where one stands and entering where one goes, either of them maybe nowhere. -/
def moveMarks (before now : Option ρ) : List (Mark ρ) :=
  (before.map Mark.leave).toList ++ (now.map Mark.enter).toList

theorem walk_moveMarks (before now : Option ρ) : walk before (moveMarks before now) = some now := by
  cases before <;> cases now <;> simp [moveMarks, walk]

/-- A walk that goes on with a move from where it stands stands where the move goes. -/
theorem walk_move {p before now : Option ρ} {ms : List (Mark ρ)} (h : walk p ms = some before) :
    walk p (ms ++ moveMarks before now) = some now := by
  rw [walk_append, h]
  exact walk_moveMarks before now

end Walk

/-- Entering and leaving alternate: a leave names the place of the enter right
before it, and no enter follows another. -/
structure Alternates (ms : List (Mark ρ)) : Prop where
  leave : ∀ pre r post, ms = pre ++ Mark.leave r :: post → pre.getLast? = some (Mark.enter r)
  enter : ∀ pre r post, ms = pre ++ Mark.enter r :: post →
    ∀ r', pre.getLast? ≠ some (Mark.enter r')

/-- The place entered and not left by the end. -/
def unmatched (ms : List (Mark ρ)) : Option ρ :=
  match ms.getLast? with
  | some (.enter r) => some r
  | _ => none

theorem unmatched_eq_some {ms : List (Mark ρ)} {r : ρ} :
    unmatched ms = some r ↔ ms.getLast? = some (Mark.enter r) := by
  unfold unmatched
  split
  · next r' h => simp [h]
  · next h =>
    constructor
    · exact nofun
    · intro hr
      exact absurd hr (h r)

variable [DecidableEq ρ]

/-- A walk from nowhere stands at what it has entered and not left. -/
theorem walk_unmatched {ms : List (Mark ρ)} {p : Option ρ} (h : walk none ms = some p) :
    unmatched ms = p := by
  rcases List.eq_nil_or_concat ms with rfl | ⟨pre, m, rfl⟩
  · simpa [walk, unmatched] using h
  · rw [List.concat_eq_append] at h ⊢
    rw [walk_append] at h
    obtain ⟨q, -, hq⟩ := Option.bind_eq_some_iff.mp h
    cases m with
    | enter r =>
      cases q <;> simp [walk] at hq
      simpa [unmatched] using hq
    | leave r =>
      cases q <;> simp [walk] at hq
      simpa [unmatched] using hq.2

theorem walk_alternates {ms : List (Mark ρ)} {p : Option ρ} (h : walk none ms = some p) :
    Alternates ms := by
  -- the walk up to any mark stands at what is unmatched there
  have hpre (pre : List (Mark ρ)) (m : Mark ρ) (post : List (Mark ρ))
      (hms : ms = pre ++ m :: post) : ∃ q, unmatched pre = q ∧ walk q (m :: post) = some p := by
    rw [hms, walk_append] at h
    obtain ⟨q, hq, hrest⟩ := Option.bind_eq_some_iff.mp h
    exact ⟨q, walk_unmatched hq, hrest⟩
  constructor
  · intro pre r post hms
    obtain ⟨q, hq, hrest⟩ := hpre pre _ post hms
    cases q with
    | none => simp [walk] at hrest
    | some r' =>
      have hr : r = r' := by
        by_contra hne
        simp [walk, hne] at hrest
      exact unmatched_eq_some.mp (hr ▸ hq)
  · intro pre r post hms r' hlast
    obtain ⟨q, hq, hrest⟩ := hpre pre _ post hms
    rw [unmatched_eq_some.mpr hlast] at hq
    rw [← hq] at hrest
    simp [walk] at hrest

end Brackets
