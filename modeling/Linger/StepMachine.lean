import Mathlib.Tactic.Common

/-! A machine that takes one labelled step at a time, with every choice its
surroundings make written in the label. A step that cannot be taken is `none`,
so a run is a list of labels and can be evaluated. -/
namespace StepMachine

universe u v
variable {σ : Type u} {ι : Type v}

structure Machine (σ : Type u) (ι : Type v) where
  start : σ
  step : σ → ι → Option σ

def Machine.runFrom (M : Machine σ ι) (s : σ) : List ι → Option σ
  | [] => some s
  | l :: ls => (M.step s l).bind (fun t => M.runFrom t ls)

def Machine.run (M : Machine σ ι) (ls : List ι) : Option σ := M.runFrom M.start ls

/-- Every step of the run is taken in a state where `ok` allows its label. -/
def Machine.MeetsFrom (M : Machine σ ι) (ok : σ → ι → Prop) (s : σ) : List ι → Prop
  | [] => True
  | l :: ls => ok s l ∧ ∀ t, M.step s l = some t → M.MeetsFrom ok t ls

def Machine.Meets (M : Machine σ ι) (ok : σ → ι → Prop) (ls : List ι) : Prop :=
  M.MeetsFrom ok M.start ls

def Machine.Reachable (M : Machine σ ι) (s : σ) : Prop := ∃ ls, M.run ls = some s

theorem Machine.runFrom_append (M : Machine σ ι) (s : σ) (ls ms : List ι) :
    M.runFrom s (ls ++ ms) = (M.runFrom s ls).bind (fun t => M.runFrom t ms) := by
  induction ls generalizing s with
  | nil => rfl
  | cons l ls ih =>
    simp only [List.cons_append, runFrom, Option.bind_assoc]
    exact congrArg _ (funext ih)

theorem Machine.runFrom_snoc (M : Machine σ ι) (s : σ) (ls : List ι) (l : ι) :
    M.runFrom s (ls ++ [l]) = (M.runFrom s ls).bind (fun t => M.step t l) := by
  rw [runFrom_append]
  refine congrArg _ (funext fun t => ?_)
  exact Option.bind_fun_some _

theorem Machine.meetsFrom_append (M : Machine σ ι) (ok : σ → ι → Prop) (s : σ) (ls ms : List ι) :
    M.MeetsFrom ok s (ls ++ ms) ↔
      M.MeetsFrom ok s ls ∧ ∀ t, M.runFrom s ls = some t → M.MeetsFrom ok t ms := by
  induction ls generalizing s with
  | nil => simp [MeetsFrom, runFrom]
  | cons l ls ih =>
    simp only [List.cons_append, MeetsFrom, runFrom, ih, Option.bind_eq_some_iff]
    constructor
    · rintro ⟨h, hs⟩
      exact ⟨⟨h, fun t ht => (hs t ht).1⟩, fun t ⟨r, hr, ht⟩ => (hs r hr).2 t ht⟩
    · rintro ⟨⟨h, hs⟩, hm⟩
      exact ⟨h, fun t ht => ⟨hs t ht, fun r hr => hm r ⟨t, ht, hr⟩⟩⟩

/-- What every allowed step keeps holds at the end of every allowed run. -/
theorem Machine.keeps_from (M : Machine σ ι) {ok : σ → ι → Prop} {I : σ → Prop}
    (hstep : ∀ s l t, I s → ok s l → M.step s l = some t → I t)
    {s t : σ} {ls : List ι} (hs : I s) (hm : M.MeetsFrom ok s ls)
    (hr : M.runFrom s ls = some t) : I t := by
  induction ls generalizing s with
  | nil => cases hr; exact hs
  | cons l ls ih =>
    obtain ⟨r, hl, hr⟩ := Option.bind_eq_some_iff.mp hr
    exact ih (hstep s l r hs hm.1 hl) (hm.2 r hl) hr

theorem Machine.invariant_of_meets (M : Machine σ ι) {ok : σ → ι → Prop} {I : σ → Prop}
    (hstart : I M.start) (hstep : ∀ s l t, I s → ok s l → M.step s l = some t → I t)
    {t : σ} {ls : List ι} (hm : M.Meets ok ls) (hr : M.run ls = some t) : I t :=
  M.keeps_from hstep hstart hm hr

theorem Machine.meetsFrom_true (M : Machine σ ι) (s : σ) (ls : List ι) :
    M.MeetsFrom (fun _ _ => True) s ls := by
  induction ls generalizing s with
  | nil => trivial
  | cons l ls ih => exact ⟨trivial, fun t _ => ih t⟩

/-- The usual rule: what holds at the start and is kept by every step holds in
every state a run reaches. -/
theorem Machine.invariant (M : Machine σ ι) {I : σ → Prop} (hstart : I M.start)
    (hstep : ∀ s l t, I s → M.step s l = some t → I t) {t : σ} (hr : M.Reachable t) : I t := by
  obtain ⟨ls, hr⟩ := hr
  exact M.keeps_from (fun s l t hs _ hl => hstep s l t hs hl)
    hstart (M.meetsFrom_true _ ls) hr

/-- A run that meets the condition meets it up to each of its states, so what
holds at the end of such runs holds all along them. -/
theorem Machine.Meets.left {M : Machine σ ι} {ok : σ → ι → Prop} {ls ms : List ι}
    (h : M.Meets ok (ls ++ ms)) : M.Meets ok ls :=
  ((M.meetsFrom_append ok M.start ls ms).mp h).1

theorem Machine.meetsFrom_of_forall (M : Machine σ ι) {ok : σ → ι → Prop} {ls : List ι}
    (h : ∀ s, ∀ l ∈ ls, ok s l) (s : σ) : M.MeetsFrom ok s ls := by
  induction ls generalizing s with
  | nil => trivial
  | cons l ls ih =>
    exact ⟨h s l List.mem_cons_self,
      fun t _ => ih (fun s m hm => h s m (List.mem_cons_of_mem _ hm)) t⟩

/-- A condition that holds of a run's labels in any state is met by it. -/
theorem Machine.meets_of_forall (M : Machine σ ι) {ok : σ → ι → Prop} {ls : List ι}
    (h : ∀ s, ∀ l ∈ ls, ok s l) : M.Meets ok ls :=
  M.meetsFrom_of_forall h M.start

/-- Where a step keeps `I` just when it is allowed, a run that stays in `I` is an allowed one. -/
theorem Machine.meetsFrom_of_states (M : Machine σ ι) {ok : σ → ι → Prop} {I : σ → Prop}
    (hstep : ∀ s l t, I s → M.step s l = some t → (I t ↔ ok s l)) {s t : σ} {ls : List ι} (hs : I s)
    (hr : M.runFrom s ls = some t)
    (hall : ∀ ms ns r, ls = ms ++ ns → M.runFrom s ms = some r → I r) : M.MeetsFrom ok s ls := by
  induction ls generalizing s with
  | nil => trivial
  | cons l ls ih =>
    obtain ⟨r, hl, hr⟩ := Option.bind_eq_some_iff.mp hr
    have hI : I r := hall [l] ls r rfl (by simp [runFrom, hl])
    refine ⟨(hstep s l r hs hl).mp hI, fun q hq => ?_⟩
    obtain rfl := Option.some.inj (hl.symm.trans hq)
    apply ih hI hr
    intro ms ns p hls hp
    exact hall (l :: ms) ns p (by rw [hls, List.cons_append]) (by simp [runFrom, hl, hp])

theorem Machine.states_iff_meets (M : Machine σ ι) {ok : σ → ι → Prop} {I : σ → Prop}
    (hstart : I M.start)
    (hstep : ∀ s l t, I s → M.step s l = some t → (I t ↔ ok s l)) {t : σ} {ls : List ι}
    (hr : M.run ls = some t) :
    (∀ ms ns s, ls = ms ++ ns → M.run ms = some s → I s) ↔ M.Meets ok ls := by
  constructor
  · exact M.meetsFrom_of_states hstep hstart hr
  · intro hm ms ns s hls hs
    rw [hls] at hm
    exact M.invariant_of_meets hstart
      (fun s l t hs hok hl => (hstep s l t hs hl).mpr hok) hm.left hs

/-- A step that is only taken where something holds. -/
theorem of_guarded {p : Prop} [Decidable p] {I : σ → Prop} {s t : σ} (h : p → I s)
    (hs : (if p then some s else none) = some t) : I t := by
  obtain ⟨hp, he⟩ := Option.ite_none_right_eq_some.mp hs
  cases he
  exact h hp

instance Machine.decidableMeetsFrom (M : Machine σ ι) (ok : σ → ι → Prop)
    [∀ s l, Decidable (ok s l)] (s : σ) (ls : List ι) : Decidable (M.MeetsFrom ok s ls) :=
  match ls with
  | [] => isTrue trivial
  | l :: ls =>
    match h : M.step s l with
    | none => decidable_of_iff (ok s l) (by simp [MeetsFrom, h])
    | some t =>
      have := M.decidableMeetsFrom ok t ls
      decidable_of_iff (ok s l ∧ M.MeetsFrom ok t ls) (by simp [MeetsFrom, h])

instance Machine.decidableMeets (M : Machine σ ι) (ok : σ → ι → Prop)
    [∀ s l, Decidable (ok s l)] (ls : List ι) : Decidable (M.Meets ok ls) :=
  M.decidableMeetsFrom ok M.start ls

end StepMachine
