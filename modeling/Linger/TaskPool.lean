import Linger.FiniteMap

/-! Things under way at once, each under a number of its own: what all of them keep, which
of them stand at some place, and what no two of them have. -/
namespace TaskPool
open FiniteMap

universe u v
variable {τ : Type u} {κ : Type v} {tasks : FMap ℕ τ} {i : ℕ} {task task' : τ}

/-- All of them keep it. -/
def All (tasks : FMap ℕ τ) (P : τ → Prop) : Prop :=
  ∀ (i : ℕ) (task : τ), tasks[i]? = some task → P task

/-- One of them stands at such a place. -/
def Has (tasks : FMap ℕ τ) (p : τ → Bool) : Prop := ∃ task ∈ vals tasks, p task = true

/-- One but this does. -/
def Others (tasks : FMap ℕ τ) (i : ℕ) (p : τ → Bool) : Prop := Has (tasks.erase i) p

/-- No two have the same of what `f` reads. -/
def Apart (tasks : FMap ℕ τ) (f : τ → Option κ) : Prop :=
  ∀ (i j : ℕ) (t u : τ) (k : κ), tasks[i]? = some t → tasks[j]? = some u →
    f t = some k → f u = some k → i = j

instance (tasks : FMap ℕ τ) (p : τ → Bool) : Decidable (Has tasks p) :=
  inferInstanceAs (Decidable (∃ task ∈ vals tasks, p task = true))

instance (tasks : FMap ℕ τ) (i : ℕ) (p : τ → Bool) : Decidable (Others tasks i p) :=
  inferInstanceAs (Decidable (Has (tasks.erase i) p))

section All
variable {P Q : τ → Prop}

theorem All.imp (h : All tasks P) (hPQ : ∀ task, P task → Q task) : All tasks Q :=
  fun i task hi => hPQ task (h i task hi)

theorem All.insert (h : All tasks P) (i : ℕ) (htask : P task) : All (tasks.insert i task) P := by
  intro j t hj
  rw [insert_at] at hj
  split at hj
  · cases hj
    exact htask
  · exact h j t hj

theorem All.erase (h : All tasks P) (i : ℕ) : All (tasks.erase i) P := by
  intro j t hj
  rw [erase_at] at hj
  split at hj
  · cases hj
  · exact h j t hj

/-- One is put in place of the one that had its number, if any had. -/
theorem All.replace (h : All (tasks.erase i) P) (htask : P task) : All (tasks.insert i task) P := by
  intro j t hj
  rw [insert_at] at hj
  split at hj
  · cases hj
    exact htask
  · next hne =>
    apply h j t
    rw [erase_at, if_neg hne]
    exact hj

theorem all_empty : All (∅ : FMap ℕ τ) P := by
  intro i task hi
  simp at hi

end All

section Has
variable {p : τ → Bool}

theorem has_iff : Has tasks p ↔ ∃ (j : ℕ) (task : τ), tasks[j]? = some task ∧ p task = true := by
  constructor
  · rintro ⟨task, hmem, hp⟩
    obtain ⟨j, hj⟩ := (mem_vals _ _).mp hmem
    exact ⟨j, task, hj, hp⟩
  · rintro ⟨j, task, hj, hp⟩
    exact ⟨task, (mem_vals _ _).mpr ⟨j, hj⟩, hp⟩

theorem others_iff : Others tasks i p ↔
    ∃ (j : ℕ) (task : τ), j ≠ i ∧ tasks[j]? = some task ∧ p task = true := by
  rw [Others, has_iff]
  constructor
  · rintro ⟨j, task, hj, hp⟩
    rw [erase_at] at hj
    split at hj
    · cases hj
    · next hne => exact ⟨j, task, hne, hj, hp⟩
  · rintro ⟨j, task, hne, hj, hp⟩
    refine ⟨j, task, ?_, hp⟩
    rw [erase_at, if_neg hne]
    exact hj

theorem has_of_others (h : Others tasks i p) : Has tasks p := by
  obtain ⟨j, task, -, hj, hp⟩ := others_iff.mp h
  exact has_iff.mpr ⟨j, task, hj, hp⟩

theorem has_split (hi : tasks[i]? = some task) (h : Has tasks p) :
    p task = true ∨ Others tasks i p := by
  obtain ⟨j, task', hj, hp⟩ := has_iff.mp h
  by_cases hij : j = i
  · rw [hij, hi] at hj
    cases hj
    exact .inl hp
  · exact .inr (others_iff.mpr ⟨j, task', hij, hj, hp⟩)

theorem has_insert : Has (tasks.insert i task) p ↔ p task = true ∨ Others tasks i p := by
  rw [has_iff, others_iff]
  constructor
  · rintro ⟨j, task', hj, hp⟩
    rw [insert_at] at hj
    split at hj
    · cases hj
      exact .inl hp
    · next hne => exact .inr ⟨j, task', hne, hj, hp⟩
  · rintro (hp | ⟨j, task', hne, hj, hp⟩)
    · exact ⟨i, task, by rw [insert_at, if_pos rfl], hp⟩
    · exact ⟨j, task', by rw [insert_at, if_neg hne]; exact hj, hp⟩

theorem has_begin (hi : tasks[i]? = none) (h : Has tasks p) : Has (tasks.insert i task) p := by
  obtain ⟨j, task', hj, hp⟩ := has_iff.mp h
  refine has_insert.mpr (.inr (others_iff.mpr ⟨j, task', ?_, hj, hp⟩))
  rintro rfl
  rw [hi] at hj
  cases hj

end Has

section Apart
variable {f : τ → Option κ}

theorem Apart.erase (h : Apart tasks f) (i : ℕ) : Apart (tasks.erase i) f := by
  intro j k t u a hj hk
  rw [erase_at] at hj hk
  split at hj
  · cases hj
  · split at hk
    · cases hk
    · exact h j k t u a hj hk

/-- One that now has what no other has, or nothing. -/
theorem Apart.insert (h : Apart tasks f) (i : ℕ)
    (hnew : ∀ k, f task = some k → ∀ (j : ℕ) (t : τ), tasks[j]? = some t → f t = some k → j = i) :
    Apart (tasks.insert i task) f := by
  intro j k t u a hj hk ht hu
  rw [insert_at] at hj hk
  split at hj
  · next hji =>
    cases hj
    split at hk
    · next hki => rw [hji, hki]
    · rw [hji, hnew a ht k u hk hu]
  · split at hk
    · next hki =>
      cases hk
      rw [hki, hnew a hu j t hj ht]
    · exact h j k t u a hj hk ht hu

/-- In place of the one that had its number. -/
theorem Apart.replace (h : Apart (tasks.erase i) f)
    (hnew : ∀ k, f task = some k → All (tasks.erase i) fun t => f t ≠ some k) :
    Apart (tasks.insert i task) f := by
  have hother (j : ℕ) (t : τ) (hne : j ≠ i) (hj : (tasks.insert i task)[j]? = some t) :
      (tasks.erase i)[j]? = some t := by
    rw [insert_at, if_neg hne] at hj
    rw [erase_at, if_neg hne]
    exact hj
  intro j k t u a hj hk ht hu
  by_cases hji : j = i
  · by_cases hki : k = i
    · rw [hji, hki]
    · rw [hji, insert_at, if_pos rfl] at hj
      cases hj
      exact absurd hu (hnew a ht k u (hother k u hki hk))
  · by_cases hki : k = i
    · rw [hki, insert_at, if_pos rfl] at hk
      cases hk
      exact absurd ht (hnew a hu j t (hother j t hji hj))
    · exact h j k t u a (hother j t hji hj) (hother k u hki hk) ht hu

end Apart

end TaskPool
