import Linger.VoiceRestarts
import Mathlib.Data.List.Basic
import Mathlib.Data.List.Induction
import Mathlib.Data.Nat.Basic
import Mathlib.Order.RelClasses

/-! What a call's plans keep: restarts come apart and in time and are called for, and each plan
wakes later than it was made, in a call that stays clear of what the rules miss. -/
namespace Linger.VoiceRestarts

variable {rules : Restarts} {call before between after : Call} {now next limit : ℕ}
  {event following : Event}

theorem restartAfter_pos : 0 < restartAfter := by decide

theorem lost_eq_true :
    rules.lost now = true ↔ ∃ asked, rules.asked = some asked ∧ asked + restartAfter ≤ now := by
  simp [Restarts.lost, Option.any_eq_true]

theorem quiet_eq_true :
    rules.quiet now = true ↔
      ∃ since, rules.disconnected = some since ∧ since + disconnectedFor ≤ now := by
  simp [Restarts.quiet, Option.any_eq_true]

/-- The earlier of two deadlines, the second of which there may be none. -/
theorem earlier_deadline (first : ℕ) (second : Option ℕ) :
    ∃ wake, ([some first, second].filterMap id).min? = some wake ∧ wake ≤ first ∧
      (∀ deadline, second = some deadline → wake ≤ deadline) ∧
      (wake = first ∨ second = some wake) := by
  cases second with
  | none => exact ⟨first, rfl, le_rfl, by simp, Or.inl rfl⟩
  | some second =>
    refine ⟨min first second, rfl, Nat.min_le_left _ _, ?_, ?_⟩
    · intro deadline he
      cases he
      exact Nat.min_le_right _ _
    · exact (Nat.le_total first second).imp Nat.min_eq_left fun h =>
        congrArg some (Nat.min_eq_right h).symm

/-- What a plan can be: a restart, a wait for the gap, a wait for the one in flight, or nothing to
do. -/
theorem plan_cases (now : ℕ)
    (hasked : ∀ asked, rules.asked = some asked → rules.last = some asked) :
    ((rules.wanted = true ∨ rules.quiet now = true ∨ rules.lost now = true) ∧
      (∀ last, rules.last = some last → last + restartAfter ≤ now) ∧
      rules.plan now = (⟨none, some now, some now, false⟩, ⟨true, some (now + restartAfter)⟩)) ∨
    (∃ last, rules.last = some last ∧ now < last + restartAfter ∧ rules.asked = none ∧
      (rules.wanted = true ∨ rules.quiet now = true) ∧
      rules.plan now = ({ rules with wanted := true }, ⟨false, some (last + restartAfter)⟩)) ∨
    (∃ asked wake, rules.asked = some asked ∧ now < asked + restartAfter ∧
      wake ≤ asked + restartAfter ∧
      (∀ since, rules.disconnected = some since → wake ≤ since + disconnectedFor) ∧
      (wake = asked + restartAfter ∨ ∃ since, rules.disconnected = some since ∧
        wake = since + disconnectedFor) ∧
      rules.plan now =
        ({ rules with wanted := rules.wanted || rules.quiet now }, ⟨false, some wake⟩)) ∨
    (rules.asked = none ∧ rules.wanted = false ∧ rules.quiet now = false ∧
      rules.plan now = (rules, ⟨false, rules.disconnected.map (· + disconnectedFor)⟩)) := by
  obtain ⟨disconnected, asked, last, wanted⟩ := rules
  cases asked with
  -- Under way: lost after the wait, and a new one then; else there is the wait for it.
  | some asked =>
    have hlast : last = some asked := hasked asked rfl
    subst hlast
    by_cases hlost : asked + restartAfter ≤ now
    · left
      have hgone : Restarts.lost ⟨disconnected, some asked, some asked, wanted⟩ now = true :=
        lost_eq_true.mpr ⟨asked, rfl, hlost⟩
      refine ⟨Or.inr (Or.inr hgone), ?_, ?_⟩
      · intro last he
        cases he
        exact hlost
      · cases hquiet : Restarts.quiet ⟨disconnected, none, some asked, true⟩ now <;>
          simp [Restarts.plan, hgone, hquiet, not_lt.mpr hlost, -not_lt]
    · have hwaits : Restarts.lost ⟨disconnected, some asked, some asked, wanted⟩ now = false := by
        rw [Bool.eq_false_iff, ne_eq, lost_eq_true]
        intro ⟨other, he, hgone⟩
        exact hlost (Option.some.inj he ▸ hgone)
      right; right; left
      -- It wakes for whichever comes first, the wait's end or that of a disconnection.
      obtain ⟨wake, hwake, hfirst, hsecond, hor⟩ :=
        earlier_deadline (asked + restartAfter) (disconnected.map (· + disconnectedFor))
      refine ⟨asked, wake, rfl, not_le.mp hlost, hfirst, ?_, ?_, ?_⟩
      · intro since hsince
        exact hsecond _ (Option.map_eq_some_iff.mpr ⟨since, hsince, rfl⟩)
      · refine hor.imp_right fun he => ?_
        obtain ⟨since, hsince, hsum⟩ := Option.map_eq_some_iff.mp he
        exact ⟨since, hsince, hsum.symm⟩
      · cases hquiet : Restarts.quiet ⟨disconnected, some asked, some asked, wanted⟩ now <;>
          simp only [Restarts.plan, hwaits, hquiet, hwake, Option.map_some, if_true,
            Bool.false_eq_true, if_false, reduceCtorEq, and_false, Bool.or_true, Bool.or_false]
  -- None under way: nothing is wanted, or one is, at once or after the gap.
  | none =>
    cases hcalled : (wanted || Restarts.quiet ⟨disconnected, none, last, wanted⟩ now) with
    | false =>
      obtain ⟨hwanted, hquiet⟩ := Bool.or_eq_false_iff.mp hcalled
      subst hwanted
      right; right; right
      refine ⟨rfl, rfl, hquiet, ?_⟩
      cases disconnected <;> simp [Restarts.plan, Restarts.lost, hquiet]
    | true =>
      have hor : wanted = true ∨ Restarts.quiet ⟨disconnected, none, last, wanted⟩ now = true :=
        (Bool.or_eq_true _ _).mp hcalled
      -- Both ways of wanting one leave the plan the same.
      have hset : Restarts.plan ⟨disconnected, none, last, wanted⟩ now =
          if now < last.elim now (· + restartAfter) then
            (⟨disconnected, none, last, true⟩, ⟨false, some (last.elim now (· + restartAfter))⟩)
          else (⟨none, some now, some now, false⟩, ⟨true, some (now + restartAfter)⟩) := by
        cases hquiet : Restarts.quiet ⟨disconnected, none, last, wanted⟩ now with
        | true => simp [Restarts.plan, Restarts.lost, hquiet]
        | false =>
          have hwanted : wanted = true := hor.resolve_right (by simp [hquiet])
          subst hwanted
          simp [Restarts.plan, Restarts.lost, hquiet]
      cases last with
      | none =>
        left
        refine ⟨hor.imp_right Or.inl, by simp, ?_⟩
        rw [hset, Option.elim_none, if_neg (lt_irrefl now)]
      | some last =>
        rw [Option.elim_some] at hset
        by_cases hearly : now < last + restartAfter
        · right; left
          exact ⟨last, rfl, hearly, rfl, hor, hset.trans (if_pos hearly)⟩
        · left
          refine ⟨hor.imp_right Or.inl, ?_, hset.trans (if_neg hearly)⟩
          intro last' he
          rw [← Option.some.inj he]
          exact not_lt.mp hearly

theorem sinceUp_concat (call : Call) (now : ℕ) (event : Event) :
    sinceUp (call ++ [(now, event)]) = if event.up then [] else (now, event) :: sinceUp call := by
  cases hup : event.up <;> simp [sinceUp, hup]

theorem Called.later (h : Called call now) (hnext : now ≤ next) : Called call next := by
  obtain ⟨⟨moment, event⟩, hmem, hcalls⟩ := h
  refine ⟨(moment, event), hmem, ?_⟩
  cases event <;> simp_all [calls]
  omega

theorem Called.concat (h : Called call now) (moment : ℕ) (hup : event.up = false) :
    Called (call ++ [(moment, event)]) now := by
  obtain ⟨happened, hmem, hcalls⟩ := h
  refine ⟨happened, ?_, hcalls⟩
  rw [sinceUp_concat, hup]
  exact List.mem_cons_of_mem _ hmem

/-- What the rules keep of the call so far. -/
structure Kept (call : Call) (now : ℕ) (rules : Restarts) : Prop where
  asked_last : ∀ asked, rules.asked = some asked → rules.last = some asked
  last_le : ∀ last, rules.last = some last → last ≤ now
  quiet_since : ∀ since, rules.disconnected = some since →
    since ≤ now ∧ (since, Event.disconnected) ∈ sinceUp call
  wanted : rules.wanted = true → Called call now

theorem Kept.later (h : Kept call now rules) (hnext : now ≤ next) : Kept call next rules :=
  { asked_last := h.asked_last
    last_le := fun last hlast => (h.last_le last hlast).trans hnext
    quiet_since := fun since hsince =>
      ⟨(h.quiet_since since hsince).1.trans hnext, (h.quiet_since since hsince).2⟩
    wanted := fun hwanted => (h.wanted hwanted).later hnext }

theorem Kept.called_of_quiet (h : Kept call now rules) (hquiet : rules.quiet now = true) :
    Called call now := by
  obtain ⟨since, hsince, hlong⟩ := quiet_eq_true.mp hquiet
  exact ⟨_, (h.quiet_since since hsince).2, decide_eq_true hlong⟩

theorem Kept.takeIn (h : Kept call now rules) (event : Event) :
    Kept (call ++ [(now, event)]) now (rules.takeIn event now) := by
  have hthen : ∀ happened ∈ sinceUp call, event.up = false →
      happened ∈ sinceUp (call ++ [(now, event)]) := by
    intro happened hmem hup
    rw [sinceUp_concat, hup]
    exact List.mem_cons_of_mem _ hmem
  have hnow : event.up = false → (now, event) ∈ sinceUp (call ++ [(now, event)]) := by
    intro hup
    rw [sinceUp_concat, hup]
    exact List.mem_cons_self
  cases event with
  | connected =>
    exact ⟨h.asked_last, h.last_le, by simp [Restarts.takeIn], by simp [Restarts.takeIn]⟩
  | disconnected =>
    refine ⟨h.asked_last, h.last_le, ?_, fun hwanted => (h.wanted hwanted).concat now rfl⟩
    intro since hsince
    cases hbefore : rules.disconnected with
    | none =>
      have he : now = since := by simpa [Restarts.takeIn, hbefore] using hsince
      exact he ▸ ⟨le_rfl, hnow rfl⟩
    | some first =>
      have he : first = since := by simpa [Restarts.takeIn, hbefore] using hsince
      obtain ⟨hle, hmem⟩ := h.quiet_since first hbefore
      exact he ▸ ⟨hle, hthen _ hmem rfl⟩
  | failed =>
    refine ⟨h.asked_last, h.last_le, by simp [Restarts.takeIn], ?_⟩
    exact fun _ => ⟨(now, .failed), hnow rfl, rfl⟩
  | answered => exact ⟨by simp [Restarts.takeIn],
      h.last_le, by simp [Restarts.takeIn], by simp [Restarts.takeIn]⟩
  | gatewayResumed =>
    refine ⟨h.asked_last, h.last_le, ?_, fun _ => ⟨(now, .gatewayResumed), hnow rfl, rfl⟩⟩
    exact fun since hsince =>
      ⟨(h.quiet_since since hsince).1, hthen _ (h.quiet_since since hsince).2 rfl⟩
  | tick =>
    refine ⟨h.asked_last, h.last_le, ?_, fun hwanted => (h.wanted hwanted).concat now rfl⟩
    exact fun since hsince =>
      ⟨(h.quiet_since since hsince).1, hthen _ (h.quiet_since since hsince).2 rfl⟩

theorem Kept.plan (h : Kept call now rules) : Kept call now (rules.plan now).1 := by
  obtain ⟨-, -, hplan⟩ | ⟨last, -, -, -, hor, hplan⟩ | ⟨asked, wake, -, -, -, -, -, hplan⟩ | ⟨-, -,
      -, hplan⟩ :=
    plan_cases now h.asked_last <;> rw [hplan]
  · exact ⟨fun _ he => he, by simp, by simp, by simp⟩
  · exact ⟨h.asked_last, h.last_le, h.quiet_since, fun _ => hor.elim h.wanted h.called_of_quiet⟩
  · refine ⟨h.asked_last, h.last_le, h.quiet_since, fun hor => ?_⟩
    exact ((Bool.or_eq_true _ _).mp hor).elim h.wanted h.called_of_quiet
  · exact h

theorem after_concat (rules : Restarts) (call : Call) (now : ℕ) (event : Event) :
    rules.after (call ++ [(now, event)]) = ((rules.after call).on event now).1 := by
  rw [Restarts.after, List.foldl_append]
  rfl

theorem Delivered.left (h : Delivered (before ++ after)) : Delivered before := by
  intro pre now event next following post hsplit
  apply h pre now event next following (post ++ after)
  rw [hsplit, List.append_assoc]
  rfl

/-- The rules keep what they keep up to the moment of the next event. -/
theorem kept_before (h : Delivered (call ++ [(now, event)])) :
    Kept call now (Restarts.default.after call) := by
  induction call using List.reverseRecOn generalizing now event with
  | nil =>
    exact ⟨by simp [Restarts.after, Restarts.default], by simp [Restarts.after, Restarts.default],
      by simp [Restarts.after, Restarts.default], by simp [Restarts.after, Restarts.default]⟩
  | append_singleton earlier happened ih =>
    obtain ⟨moment, last⟩ := happened
    have hnext : moment ≤ now := (h earlier moment last now event [] (by simp)).1
    rw [after_concat]
    exact (((ih h.left).takeIn last).plan).later hnext

theorem kept_taken (h : Delivered (call ++ [(now, event)])) :
    Kept (call ++ [(now, event)]) now ((Restarts.default.after call).takeIn event now) :=
  (kept_before h).takeIn event

theorem takeIn_last (rules : Restarts) (event : Event) (now : ℕ) :
    (rules.takeIn event now).last = rules.last := by
  cases event <;> rfl

theorem takeIn_asked (rules : Restarts) (now : ℕ) (hanswered : event ≠ .answered) :
    (rules.takeIn event now).asked = rules.asked := by
  cases event with
  | answered => exact absurd rfl hanswered
  | _ => rfl

/-- A restart that is asked for leaves room for no other until it is `restartAfter` old. -/
theorem restart_spaced (h : Delivered (call ++ [(now, event)]))
    (hrestart : (planAfter call now event).restart = true) :
    (∀ last, (Restarts.default.after call).last = some last → last + restartAfter ≤ now) ∧
      (Restarts.default.after (call ++ [(now, event)])).last = some now := by
  have hkept := kept_taken h
  rw [after_concat]
  unfold planAfter at hrestart
  unfold Restarts.on at hrestart ⊢
  obtain ⟨-, hlast, hplan⟩ | ⟨last, -, -, -, -, hplan⟩ | ⟨asked, wake, -, -, -, -, -, hplan⟩ | ⟨-,
      -, -, hplan⟩ :=
    plan_cases now hkept.asked_last <;> rw [hplan] at hrestart ⊢
  · rw [takeIn_last] at hlast
    exact ⟨hlast, rfl⟩
  all_goals exact absurd hrestart Bool.false_ne_true

/-- Once a restart was asked for, the last one is never an earlier one. -/
theorem last_after (h : Delivered (before ++ (now, event) :: (between ++ [(next, following)])))
    (hrestart : (planAfter before now event).restart = true) :
    ∃ last, (Restarts.default.after (before ++ (now, event) :: between)).last = some last ∧
      now ≤ last := by
  induction between using List.reverseRecOn generalizing next following with
  | nil =>
    have hfirst : Delivered (before ++ [(now, event)]) := by
      rw [List.nil_append, List.append_cons] at h
      exact h.left
    exact ⟨now, (restart_spaced hfirst hrestart).2, le_rfl⟩
  | append_singleton between happened ih =>
    obtain ⟨moment, middle⟩ := happened
    have hsplit : before ++ (now, event) :: (between ++ [(moment, middle)]) =
        (before ++ (now, event) :: between) ++ [(moment, middle)] := by simp
    have hshort : Delivered (before ++ (now, event) :: (between ++ [(moment, middle)])) := by
      have hwhole : Delivered
          (before ++ (now, event) :: (between ++ [(moment, middle)]) ++ [(next, following)]) := by
        simpa using h
      exact hwhole.left
    obtain ⟨last, hlast, hle⟩ := ih hshort
    rw [hsplit] at hshort ⊢
    have hkept := kept_taken hshort
    rw [after_concat]
    unfold Restarts.on
    obtain ⟨-, -, hplan⟩ | ⟨last, -, -, -, -, hplan⟩ | ⟨asked, wake, -, -, -, -, -, hplan⟩ | ⟨-, -,
        -, hplan⟩ :=
      plan_cases moment hkept.asked_last <;> rw [hplan]
    · exact ⟨moment, rfl, hle.trans ((kept_before hshort).last_le last hlast)⟩
    all_goals exact ⟨_, (takeIn_last _ _ _).trans hlast, hle⟩

theorem restarts_apart
    (h : Delivered (before ++ (now, event) :: (between ++ (next, following) :: after)))
    (hfirst : (planAfter before now event).restart = true)
    (hsecond : (planAfter (before ++ (now, event) :: between) next following).restart = true) :
    now + restartAfter ≤ next := by
  have hboth : Delivered (before ++ (now, event) :: (between ++ [(next, following)])) := by
    have hwhole :
        Delivered (before ++ (now, event) :: (between ++ [(next, following)]) ++ after) := by
      simpa using h
    exact hwhole.left
  have hsplit : Delivered ((before ++ (now, event) :: between) ++ [(next, following)]) := by
    simpa using hboth
  obtain ⟨last, hlast, hle⟩ := last_after hboth hfirst
  have hspaced := (restart_spaced hsplit hsecond).1 last hlast
  omega

/-- A restart is due by then: one is called for or soon will be, and no earlier one stands in its
way. -/
structure Hungry (limit : ℕ) (rules : Restarts) : Prop where
  last : ∀ last, rules.last = some last → last + restartAfter ≤ limit
  due : rules.wanted = true ∨ ∃ since, rules.disconnected = some since ∧
    since + disconnectedFor ≤ limit

theorem Hungry.takeIn (h : Hungry limit rules) (hup : event.up = false) (now : ℕ) :
    Hungry limit (rules.takeIn event now) := by
  refine ⟨fun last hlast => h.last last (takeIn_last rules event now ▸ hlast), ?_⟩
  cases event with
  | connected => cases hup
  | answered => cases hup
  | disconnected =>
    refine h.due.imp_right ?_
    intro ⟨since, hsince, hle⟩
    exact ⟨since, by simp [Restarts.takeIn, hsince], hle⟩
  | failed => exact Or.inl rfl
  | gatewayResumed => exact Or.inl rfl
  | tick => exact h.due

theorem Hungry.plan (h : Hungry limit rules) (now : ℕ)
    (hasked : ∀ asked, rules.asked = some asked → rules.last = some asked) :
    (rules.plan now).2.restart = true ∨
      Hungry limit (rules.plan now).1 ∧ ∃ wake, (rules.plan now).2.wake = some wake ∧
        wake ≤ limit := by
  obtain ⟨-, -, hplan⟩ | ⟨last, hlast, -, -, -, hplan⟩ | ⟨asked, wake, hin, -, hwake, -, -, hplan⟩ |
    ⟨-, hwanted, -, hplan⟩ := plan_cases now hasked <;> rw [hplan]
  · exact Or.inl rfl
  · exact Or.inr ⟨⟨h.last, Or.inl rfl⟩, _, rfl, h.last last hlast⟩
  · refine Or.inr ⟨⟨h.last, h.due.imp_left fun hwanted => ?_⟩, _, rfl,
      hwake.trans (h.last asked (hasked asked hin))⟩
    exact (Bool.or_eq_true _ _).mpr (Or.inl hwanted)
  · obtain ⟨since, hsince, hle⟩ := h.due.resolve_left (by simp [hwanted])
    exact Or.inr ⟨h, since + disconnectedFor, by rw [hsince]; rfl, hle⟩

/-- What an event that a restart should follow leaves. -/
theorem hungry_of_patience (h : Kept call now rules) {patient : ℕ}
    (hpatience : patience event = some patient) :
    Hungry (now + patient) (rules.takeIn event now) := by
  cases event with
  | disconnected =>
    have hpatient : disconnectedFor + restartAfter = patient := Option.some.inj hpatience
    constructor
    case last =>
      intro last hlast
      have hle := h.last_le last hlast
      omega
    case due =>
      right
      cases hbefore : rules.disconnected with
      | none => exact ⟨now, by simp [Restarts.takeIn, hbefore], by omega⟩
      | some since =>
        have hle := (h.quiet_since since hbefore).1
        exact ⟨since, by simp [Restarts.takeIn, hbefore], by omega⟩
  | failed =>
    have hpatient : restartAfter = patient := Option.some.inj hpatience
    refine ⟨?_, Or.inl rfl⟩
    intro last hlast
    have hle := h.last_le last hlast
    omega
  | connected => cases hpatience
  | answered => cases hpatience
  | gatewayResumed => cases hpatience
  | tick => cases hpatience

theorem RestartedBy.more {stretch : Call} {first last : ℕ}
    (h : RestartedBy before stretch first last) (more : Call) :
    RestartedBy before (stretch ++ more) first last := by
  obtain ⟨pre, moment, event, post, hsplit, hrestart⟩ := h
  exact ⟨pre, moment, event, post ++ more, by rw [hsplit, List.append_assoc]; rfl, hrestart⟩

/-- Until a restart comes, each wake is within the time there is for it. -/
theorem restarted_or_hungry (h : Delivered (before ++ (now, event) :: between)) {patient : ℕ}
    (hpatience : patience event = some patient)
    (hdown : ∀ happened ∈ between, happened.2.up = false) :
    RestartedBy before ((now, event) :: between) now (now + patient) ∨
      (Hungry (now + patient) (Restarts.default.after (before ++ (now, event) :: between)) ∧
        ∃ (pre : Call) (moment : ℕ) (last : Event) (wake : ℕ),
          before ++ (now, event) :: between = pre ++ [(moment, last)] ∧
          now ≤ moment ∧ moment ≤ now + patient ∧ (planAfter pre moment last).wake = some wake ∧
          wake ≤ now + patient) := by
  induction between using List.reverseRecOn with
  | nil =>
    have hkept := kept_taken h
    rw [after_concat]
    rcases (hungry_of_patience (kept_before h) hpatience).plan now hkept.asked_last with
      hrestart | ⟨hhungry, wake, hwake, hle⟩
    · exact Or.inl ⟨[], now, event, [], rfl, by rw [List.append_nil]; exact hrestart,
        le_rfl, by omega⟩
    · exact Or.inr ⟨hhungry, before, now, event, wake, rfl, le_rfl, by omega, hwake, hle⟩
  | append_singleton between happened ih =>
    obtain ⟨moment, middle⟩ := happened
    have hsplit : before ++ (now, event) :: (between ++ [(moment, middle)]) =
        (before ++ (now, event) :: between) ++ [(moment, middle)] := by simp
    have hup : middle.up = false := hdown _ (List.mem_append_right _ List.mem_cons_self)
    rw [hsplit] at h ⊢
    rcases ih h.left (fun happened hmem => hdown happened (List.mem_append_left _ hmem)) with
      hrestarted | ⟨hhungry, pre, earlier, last, wake, hpre, hnow, hlate, hwake, hle⟩
    · exact Or.inl (hrestarted.more [(moment, middle)])
    · obtain ⟨hnext, htick⟩ := h pre earlier last moment middle [] (by rw [hpre]; simp)
      have hin : moment ≤ now + patient := (htick wake hwake).trans (max_le hle hlate)
      have hkept := kept_taken h
      rw [after_concat]
      rcases (hhungry.takeIn hup moment).plan moment hkept.asked_last with
        hrestart | ⟨hhungry, wake, hwake, hle⟩
      · exact Or.inl ⟨(now, event) :: between, moment, middle, [], rfl, hrestart, hnow.trans hnext,
          hin⟩
      · exact Or.inr ⟨hhungry, _, moment, middle, wake, rfl, hnow.trans hnext, hin, hwake, hle⟩

theorem restarted_in_time
    (h : Delivered (before ++ (now, event) :: (between ++ (next, following) :: after)))
    {patient : ℕ} (hpatience : patience event = some patient)
    (hdown : ∀ happened ∈ between, happened.2.up = false) (hlate : now + patient < next) :
    RestartedBy before ((now, event) :: between) now (now + patient) := by
  have hshort : Delivered (before ++ (now, event) :: between) := by
    have hwhole : Delivered (before ++ (now, event) :: between ++ (next, following) :: after) := by
      simpa using h
    exact hwhole.left
  rcases restarted_or_hungry hshort hpatience hdown with
    hrestarted | ⟨-, pre, moment, last, wake, hpre, -, hin, hwake, hle⟩
  · exact hrestarted
  · have hsplit : before ++ (now, event) :: (between ++ (next, following) :: after) =
        pre ++ (moment, last) :: (next, following) :: after := by
      calc before ++ (now, event) :: (between ++ (next, following) :: after)
          = (before ++ (now, event) :: between) ++ (next, following) :: after := by simp
        _ = pre ++ (moment, last) :: (next, following) :: after := by rw [hpre]; simp
    have htick := (h pre moment last next following after hsplit).2 wake hwake
    have hlast : next ≤ now + patient := htick.trans (max_le hle hin)
    exact absurd hlate (not_lt.mpr hlast)

theorem takeIn_disconnected {since : ℕ}
    (hsince : (rules.takeIn event now).disconnected = some since) :
    event ≠ .failed ∧ event.up = false ∧ (rules.disconnected = some since ∨ since = now) := by
  cases event with
  | connected => cases hsince
  | answered => cases hsince
  | failed => cases hsince
  | disconnected =>
    refine ⟨by decide, rfl, ?_⟩
    cases hbefore : rules.disconnected with
    | none => exact Or.inr (by simpa [Restarts.takeIn, hbefore] using hsince.symm)
    | some first => exact Or.inl (by simpa [Restarts.takeIn, hbefore] using hsince)
  | gatewayResumed => exact ⟨by decide, rfl, Or.inl hsince⟩
  | tick => exact ⟨by decide, rfl, Or.inl hsince⟩

theorem called_of_clear (h : Delivered (before ++ [(now, event)])) (hclear : Clear before now event)
    (hrestart : (planAfter before now event).restart = true) :
    Called (before ++ [(now, event)]) now := by
  have hkept := kept_taken h
  unfold planAfter Restarts.on at hrestart
  obtain ⟨hwhy, -, -⟩ | ⟨last, -, -, -, -, hplan⟩ | ⟨asked, wake, -, -, -, -, -, hplan⟩ | ⟨-, -, -,
      hplan⟩ :=
    plan_cases now hkept.asked_last
  · rcases hwhy with hwanted | hquiet | hlost
    · exact hkept.wanted hwanted
    · exact hkept.called_of_quiet hquiet
    · obtain ⟨asked, hasked, hold⟩ := lost_eq_true.mp hlost
      have hanswered : event ≠ .answered := by
        intro he
        subst he
        cases hasked
      exact hclear.not_lost asked hanswered (takeIn_asked _ now hanswered ▸ hasked) hold
  all_goals
    rw [hplan] at hrestart
    exact absurd hrestart Bool.false_ne_true

theorem wakes_of_clear (h : Delivered (before ++ [(now, event)])) (hclear : Clear before now event)
    {wake : ℕ}
    (hwake : (planAfter before now event).wake = some wake) : now < wake := by
  have hkept := kept_taken h
  have hpositive := restartAfter_pos
  unfold planAfter Restarts.on at hwake
  obtain ⟨-, -, hplan⟩ | ⟨last, -, hearly, -, -, hplan⟩ | ⟨asked, first, hasked, hearly, -, -, hor,
      hplan⟩ |
    ⟨-, -, hquiet, hplan⟩ := plan_cases now hkept.asked_last <;> rw [hplan] at hwake
  · rw [← Option.some.inj hwake]
    omega
  · rw [← Option.some.inj hwake]
    exact hearly
  · rw [← Option.some.inj hwake]
    rcases hor with he | ⟨since, hsince, he⟩
    · exact he ▸ hearly
    · by_contra hpast
      obtain ⟨hfailed, hup, hbefore⟩ := takeIn_disconnected hsince
      have hquiet : since + disconnectedFor ≤ now := he ▸ not_lt.mp hpast
      have hanswered : event ≠ .answered := by
        intro he
        subst he
        cases hup
      have hlong : 0 < disconnectedFor := by decide
      have hsame := hbefore.resolve_right (by omega)
      have hold := hclear.not_quiet asked since hfailed hup
        (takeIn_asked _ now hanswered ▸ hasked) hsame hquiet
      omega
  · obtain ⟨since, hsince, he⟩ := Option.map_eq_some_iff.mp hwake
    rw [← he]
    by_contra hpast
    rw [quiet_eq_true.mpr ⟨since, hsince, not_lt.mp hpast⟩] at hquiet
    exact Bool.noConfusion hquiet

/-- Where a plan wakes later and restarts only when it is called for, the moment is clear of what
the rules miss. -/
theorem clear_of_rules (h : Delivered (before ++ [(now, event)]))
    (hcalled : (planAfter before now event).restart = true → Called (before ++ [(now, event)]) now)
    (hwakes : ∀ wake, (planAfter before now event).wake = some wake → now < wake) :
    Clear before now event := by
  have hkept := kept_taken h
  have hlast := (kept_before h).asked_last
  unfold planAfter Restarts.on at hcalled hwakes
  constructor
  case not_quiet =>
    intro asked since hfailed hup hasked hsince hquiet
    by_contra hearly
    have hanswered : event ≠ .answered := by
      intro he
      subst he
      cases hup
    have hsame : ((Restarts.default.after before).takeIn event now).asked = some asked :=
      (takeIn_asked _ now hanswered).trans hasked
    have hstill : ((Restarts.default.after before).takeIn event now).disconnected = some since := by
      cases event with
      | disconnected => simp [Restarts.takeIn, hsince]
      | gatewayResumed => exact hsince
      | tick => exact hsince
      | failed => exact absurd rfl hfailed
      | connected => cases hup
      | answered => cases hup
    obtain ⟨-, hspaced, -⟩ | ⟨last, -, -, hnone, -, -⟩ | ⟨other, first, -, -, -, hfirst, -,
        hplan⟩ | ⟨hnone, -, -, -⟩ :=
      plan_cases now hkept.asked_last
    · exact hearly (hspaced asked (hkept.asked_last asked hsame))
    · exact absurd (hsame.symm.trans hnone) (by simp)
    · rw [hplan] at hwakes
      have hlater := hwakes first rfl
      have hle := hfirst since hstill
      omega
    · exact absurd (hsame.symm.trans hnone) (by simp)
  case not_lost =>
    intro asked hanswered hasked hold
    have hsame : ((Restarts.default.after before).takeIn event now).asked = some asked :=
      (takeIn_asked _ now hanswered).trans hasked
    obtain ⟨-, -, hplan⟩ | ⟨last, -, -, hnone, -, -⟩ | ⟨other, first, hother, hearly, -, -, -,
        -⟩ | ⟨hnone, -, -, -⟩ :=
      plan_cases now hkept.asked_last
    · rw [hplan] at hcalled
      exact hcalled rfl
    · exact absurd (hsame.symm.trans hnone) (by simp)
    · have he : other = asked := Option.some.inj (hother.symm.trans hsame)
      omega
    · exact absurd (hsame.symm.trans hnone) (by simp)

/-- The rules of a call hold just when every moment of it is clear of what they miss. -/
theorem rules_iff_clear (call : Call) (h : Delivered call) :
    Rules call ↔
      ∀ (before after : Call) (now : ℕ) (event : Event), call = before ++ (now, event) :: after →
      Clear before now event := by
  have hupTo :
      ∀ (before after : Call) (now : ℕ) (event : Event), call = before ++ (now, event) :: after →
      Delivered (before ++ [(now, event)]) := by
    intro before after now event hsplit
    rw [hsplit, List.append_cons] at h
    exact h.left
  constructor
  · intro hrules before after now event hsplit
    apply clear_of_rules (hupTo before after now event hsplit)
    · exact hrules.called_for before after now event hsplit
    · exact fun wake => hrules.wakes_later before after now wake event hsplit
  · intro hclear
    have hapart : ∀ (before between after : Call) (now next : ℕ) (event following : Event),
        call = before ++ (now, event) :: (between ++ (next, following) :: after) →
        (planAfter before now event).restart = true →
        (planAfter (before ++ (now, event) :: between) next following).restart = true →
        now + restartAfter ≤ next := by
      intro before between after now next event following hsplit
      exact restarts_apart (hsplit ▸ h)
    constructor
    case apart => exact hapart
    case one_at_a_time =>
      intro before between after now next event following hsplit hfirst hsoon _
      by_contra hsecond
      have hspaced := hapart before between after now next event following hsplit hfirst
        ((Bool.not_eq_false _).mp hsecond)
      omega
    case in_time =>
      intro before between after now next limit event following hsplit hpatience hdown hlate
      exact restarted_in_time (hsplit ▸ h) hpatience hdown hlate
    case called_for =>
      intro before after now event hsplit
      exact called_of_clear (hupTo before after now event hsplit)
        (hclear before after now event hsplit)
    case wakes_later =>
      intro before after now wake event hsplit
      exact wakes_of_clear (hupTo before after now event hsplit)
        (hclear before after now event hsplit)

/-- `Delivered`, as it can be checked. -/
def deliveredFrom (rules : Restarts) : Call → Bool
  | (now, event) :: (next, following) :: after =>
    decide (now ≤ next) && ((rules.on event now).2.wake.all fun wake => next ≤ max wake now) &&
      deliveredFrom (rules.on event now).1 ((next, following) :: after)
  | _ => true

theorem delivered_of_from (h : deliveredFrom Restarts.default call = true) : Delivered call := by
  have hgeneral :
      ∀ (rules : Restarts) (before : Call) (now : ℕ) (event : Event) (next : ℕ) (following : Event)
      (after : Call), deliveredFrom rules (before ++ (now, event) :: (next, following) :: after) =
        true →
      now ≤ next ∧ ∀ wake, ((rules.after before).on event now).2.wake = some wake →
        next ≤ max wake now := by
    intro rules before
    induction before generalizing rules with
    | nil =>
      intro now event next following after h
      rw [List.nil_append, deliveredFrom, Bool.and_eq_true, Bool.and_eq_true] at h
      refine ⟨of_decide_eq_true h.1.1, fun wake hwake => ?_⟩
      have hall := h.1.2
      change ((rules.on event now).2.wake).all _ = true at hall
      rw [show (rules.on event now).2.wake = some wake from hwake] at hall
      exact of_decide_eq_true hall
    | cons first before ih =>
      intro now event next following after h
      apply ih (rules.on first.2 first.1).1 now event next following after
      cases before with
      | nil =>
        rw [List.cons_append, List.nil_append, deliveredFrom, Bool.and_eq_true] at h
        exact h.2
      | cons second before =>
        rw [List.cons_append, List.cons_append, deliveredFrom, Bool.and_eq_true] at h
        exact h.2
  intro before now event next following after hsplit
  exact hgeneral Restarts.default before now event next following after (hsplit ▸ h)

/-- A connection that failed and was answered keeps the rules. -/
theorem rules_iff_clear_answered :
    Rules [(10 * 10 ^ 9, .failed), (11 * 10 ^ 9, .answered)] := by
  have hdelivered : Delivered [(10 * 10 ^ 9, .failed), (11 * 10 ^ 9, .answered)] :=
    delivered_of_from (by decide)
  refine (rules_iff_clear _ hdelivered).mpr ?_
  intro before after now event hsplit
  have hcases : (before = [] ∧ now = 10 * 10 ^ 9 ∧ event = .failed) ∨
      (before = [(10 * 10 ^ 9, .failed)] ∧ now = 11 * 10 ^ 9 ∧ event = .answered) := by
    rcases before with _ | ⟨first, _ | ⟨second, more⟩⟩
    · cases hsplit
      exact Or.inl ⟨rfl, rfl, rfl⟩
    · cases hsplit
      exact Or.inr ⟨rfl, rfl, rfl⟩
    · simp at hsplit
  rcases hcases with ⟨rfl, rfl, rfl⟩ | ⟨rfl, rfl, rfl⟩
  · exact ⟨fun asked since hfailed => absurd rfl hfailed,
      fun asked _ hasked => absurd hasked (by simp [Restarts.after, Restarts.default])⟩
  · exact ⟨fun asked since _ hup => absurd hup (by decide),
      fun asked hanswered => absurd rfl hanswered⟩

/-- A connection that failed, was asked for afresh and went quiet before the offer came: the plan at
the end of its wait wakes at its own moment. -/
theorem wakes_at_once : ¬ ∀ call : Call, Delivered call → Rules call := by
  intro h
  have hdelivered :
      Delivered [(10 * 10 ^ 9, .failed), (105 * 10 ^ 8, .disconnected), (125 * 10 ^ 8, .tick)] :=
    delivered_of_from (by decide)
  have hlater :=
    (h _ hdelivered).wakes_later [(10 * 10 ^ 9, .failed), (105 * 10 ^ 8, .disconnected)] []
    (125 * 10 ^ 8) (125 * 10 ^ 8) .tick rfl (by decide)
  exact lt_irrefl _ hlater

end Linger.VoiceRestarts
