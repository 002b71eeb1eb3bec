import Linger.StepMachine
import Mathlib.Data.List.TakeWhile
import Mathlib.Tactic.Linarith

/-! The thread that owns an audio device: it builds a stream, holds it until something wakes it, and
builds again. A wake can be sent at any moment, and what is heard at once boils down to the
strongest. -/
namespace Linger.AudioWorker
open StepMachine

/-- What wakes a worker, in order of what matters most. -/
inductive Wake
  | died
  | switch
  | stop
deriving DecidableEq

def Wake.max : Wake → Wake → Wake
  | .stop, _ => .stop
  | _, .stop => .stop
  | .switch, _ => .switch
  | _, .switch => .switch
  | .died, .died => .died

/-- Everything already waiting, boiled down to the one that matters. -/
def strongest (waiting : List Wake) (first : Wake) : Wake := waiting.foldl Wake.max first

/-- How hard a worker tries to get a device back before giving up. -/
structure Retry where
  pause : ℕ
  attempts : ℕ
deriving DecidableEq

inductive Ended
  /-- The first build failed, which is the caller's answer. -/
  | refused
  | gaveUp
  | stopped
deriving DecidableEq

inductive Phase
  | building
  /-- The stream plays, and the worker waits on its channel. -/
  | playing
  /-- `wait_or_stop`, with that long left. -/
  | waiting (left : ℕ)
  | ended (how : Ended)
deriving DecidableEq

/-- What happened from one build's beginning to the next one's. -/
inductive Happened
  | sent (wake : Wake)
  | played
  | failed
  /-- The stream's death is what the worker woke to. -/
  | dies
  /-- The worker waited that long, on a stream or in a pause. -/
  | idled (time : ℕ)
  | abandoned
deriving DecidableEq

/-- A build, and what happened from its beginning to the next one's, oldest first. -/
abbrev Round := List Happened

/-- The worker: its channel, how many builds failed in a row, whether the caller still waits for the
first answer, and what happened: the last build's round, and those before, newest first. -/
structure Worker where
  phase : Phase
  queue : List Wake
  failures : ℕ
  ready : Bool
  round : Round
  past : List Round
deriving DecidableEq

def Worker.start : Worker := ⟨.building, [], 0, true, [], []⟩

inductive Event
  | send (wake : Wake)
  /-- The build, or the stream's start, comes out. -/
  | built (ok : Bool)
  /-- The worker takes what waits in its channel. -/
  | hears
  /-- A pause is out. -/
  | timesOut
  | passes (time : ℕ)
deriving DecidableEq

def Worker.note (worker : Worker) (happened : Happened) : Worker :=
  { worker with round := worker.round ++ [happened] }

/-- The loop comes round: another build begins. -/
def Worker.build (worker : Worker) : Worker :=
  { worker with phase := .building, round := [], past := worker.round :: worker.past }

/-- What a build comes to. -/
def Worker.built (retry : Retry) (worker : Worker) : Bool → Worker
  | true => ({ worker with phase := .playing, failures := 0, ready := false } : Worker).note .played
  | false =>
    let worker := worker.note .failed
    -- The very first open failing is the caller's answer.
    if worker.ready then { worker with phase := .ended .refused, ready := false }
    else if worker.failures + 1 ≥ retry.attempts then
      ({ worker with phase := .ended .gaveUp, failures := worker.failures + 1 } : Worker).note
        .abandoned
    else { worker with phase := .waiting retry.pause, failures := worker.failures + 1 }

/-- The worker takes all that waits in its channel, while a stream plays or in a pause. -/
def Worker.hears (retry : Retry) (worker : Worker) (first : Wake) (more : List Wake) :
    Option Worker :=
  let woke := strongest more first
  let worker := { worker with queue := [] }
  match worker.phase with
  | .playing =>
    match woke with
    | .died => some (({ worker with phase := .waiting retry.pause } : Worker).note .dies)
    | .switch => some worker.build
    | .stop => some { worker with phase := .ended .stopped }
  | .waiting _ =>
    match woke with
    | .stop => some { worker with phase := .ended .stopped }
    | .switch => some ({ worker with failures := 0 } : Worker).build
    | .died => some worker
  | _ => none

/-- Time passes for a worker that waits only while nothing is in its channel, and no longer than its
pause. -/
def Worker.step (retry : Retry) (worker : Worker) : Event → Option Worker
  | .send wake =>
    match worker.phase with
    | .ended _ => some worker
    | _ => some (({ worker with queue := worker.queue ++ [wake] } : Worker).note (.sent wake))
  | .built ok => if worker.phase = .building then some (worker.built retry ok) else none
  | .hears =>
    match worker.queue with
    | [] => none
    | first :: more => worker.hears retry first more
  | .timesOut => if worker.phase = .waiting 0 ∧ worker.queue = [] then some worker.build else none
  | .passes time =>
    if worker.queue ≠ [] then none
    else
      match worker.phase with
      | .playing => some (worker.note (.idled time))
      | .waiting left =>
        if time ≤ left then
          some (({ worker with phase := .waiting (left - time) } : Worker).note (.idled time))
        else none
      | _ => none

def machine (retry : Retry) : Machine Worker Event := ⟨.start, Worker.step retry⟩

/-- Its build failed, and no switch was sent from its beginning on. -/
def Unswitched (round : Round) : Prop := .failed ∈ round ∧ .sent .switch ∉ round

instance (round : Round) : Decidable (Unswitched round) := inferInstanceAs (Decidable (_ ∧ _))

/-- The builds that failed in a row, with no switch since the first of them began. -/
def streak (rounds : List Round) : ℕ := (rounds.takeWhile fun round => Unswitched round).length

/-- How long the worker waited. -/
def idle (round : Round) : ℕ :=
  (round.filterMap fun happened => match happened with | .idled time => some time | _ => none).sum

/-- What the worker owes those who wake it. -/
structure Heeds (retry : Retry) (worker : Worker) : Prop where
  /-- No build begins once a stop was sent. -/
  stops : ∀ round ∈ worker.past, .sent .stop ∉ round
  /-- Between a switch and the build that follows it, nothing is waited for and nothing given up. -/
  switches : ∀ round ∈ worker.round :: worker.past,
    round.Pairwise fun before after => before = .sent .switch →
      after ≠ .abandoned ∧ ∀ time, after ≠ .idled time
  /-- The worker leaves no switch unfollowed, but for a stop or the caller's own answer. -/
  follows : ∀ how, worker.phase = .ended how → .sent .switch ∈ worker.round →
    how = .refused ∨ .sent .stop ∈ worker.round
  /-- It gives up only once that many builds failed in a row with no switch. -/
  gives : .abandoned ∈ worker.round → retry.attempts ≤ streak (worker.round :: worker.past)
  /-- It abandons once, as it gives up. -/
  abandons : (worker.round :: worker.past).flatten.count .abandoned = if worker.phase =
    .ended .gaveUp then 1 else 0
  /-- After a death it waits the whole pause, or a switch came. -/
  waits : ∀ round ∈ worker.past, ∀ before after, round = before ++ .dies :: after →
    idle after = retry.pause ∨ .sent .switch ∈ after
  /-- A build follows another for what was sent after that one began, or because that one failed. -/
  causes : ∀ round ∈ worker.past, .failed ∈ round ∨ .sent .died ∈ round ∨ .sent .switch ∈ round

/-- The last build allowed does not fail while a switch waits in the channel. -/
def Allowed (retry : Retry) (worker : Worker) : Event → Prop
  | .built false =>
    worker.ready = true ∨ worker.failures + 1 < retry.attempts ∨ .switch ∉ worker.queue
  | _ => True

section Strongest
variable {first : Wake} {more : List Wake}

theorem max_eq (a b : Wake) : Wake.max a b = a ∨ Wake.max a b = b := by
  cases a <;> cases b <;> simp [Wake.max]

theorem max_stop (a b : Wake) : Wake.max a b = .stop ↔ a = .stop ∨ b = .stop := by
  cases a <;> cases b <;> simp [Wake.max]

theorem max_died (a b : Wake) : Wake.max a b = .died ↔ a = .died ∧ b = .died := by
  cases a <;> cases b <;> simp [Wake.max]

theorem strongest_mem : strongest more first ∈ first :: more := by
  induction more generalizing first with
  | nil => exact List.mem_cons_self
  | cons wake more ih =>
    have h := @ih (Wake.max first wake)
    rw [show strongest (wake :: more) first = strongest more (Wake.max first wake) from rfl]
    rcases List.mem_cons.mp h with heq | hmem
    · rw [heq]
      rcases max_eq first wake with hfirst | hwake
      · rw [hfirst]
        exact List.mem_cons_self
      · rw [hwake]
        exact List.mem_cons_of_mem _ List.mem_cons_self
    · exact List.mem_cons_of_mem _ (List.mem_cons_of_mem _ hmem)

theorem strongest_stop : strongest more first = .stop ↔ .stop ∈ first :: more := by
  induction more generalizing first with
  | nil => simp [strongest, eq_comm]
  | cons wake more ih =>
    rw [show strongest (wake :: more) first = strongest more (Wake.max first wake) from rfl, ih]
    simp only [List.mem_cons, @eq_comm _ Wake.stop, max_stop, or_assoc]

theorem strongest_died : strongest more first = .died ↔ ∀ wake ∈ first :: more, wake = .died := by
  induction more generalizing first with
  | nil => simp [strongest]
  | cons wake more ih =>
    rw [show strongest (wake :: more) first = strongest more (Wake.max first wake) from rfl, ih]
    simp only [List.forall_mem_cons, max_died, and_assoc]

end Strongest

section Invariant
variable {retry : Retry} {worker next : Worker}

/-- The worker still listens to its channel. -/
def Worker.Live (worker : Worker) : Prop := ∀ how, worker.phase ≠ .ended how

/-- How the last round and the count of failures stand, by what the worker does. -/
def Worker.Stands (retry : Retry) (worker : Worker) : Prop :=
  match worker.phase with
  | .building =>
    .failed ∉ worker.round ∧ .dies ∉ worker.round ∧ worker.failures = streak worker.past
  | .playing => .failed ∉ worker.round ∧ .dies ∉ worker.round ∧ worker.failures = 0
  | .waiting left =>
    (.failed ∈ worker.round ∧ .dies ∉ worker.round ∧ worker.failures = streak worker.past + 1) ∨
      (.failed ∉ worker.round ∧ .sent .died ∈ worker.round ∧ worker.failures = 0 ∧
        ∀ before after, worker.round = before ++ .dies :: after →
          .sent .switch ∉ before ∧ idle after + left = retry.pause)
  | .ended _ => True

/-- What holds of a worker, whatever was sent to it and whenever. -/
structure Fits (retry : Retry) (worker : Worker) : Prop where
  heeds : Heeds retry worker
  /-- What waits in the channel was sent since the last build began. -/
  queued : ∀ wake ∈ worker.queue, .sent wake ∈ worker.round
  /-- A switch or a stop sent since then waits there yet. -/
  pending : worker.Live → ∀ wake, wake ≠ .died → .sent wake ∈ worker.round → wake ∈ worker.queue
  stands : worker.Stands retry

theorem start_fits : Fits retry .start where
  heeds := by constructor <;> simp [Worker.start]
  queued := by simp [Worker.start]
  pending := by simp [Worker.start]
  stands := by simp [Worker.start, Worker.Stands, streak]

theorem Fits.unsent (h : Fits retry worker) (hlive : worker.Live) (hqueue : worker.queue = [])
    {wake : Wake}
    (hwake : wake ≠ .died) : .sent wake ∉ worker.round := by
  intro hsent
  have hmem := h.pending hlive wake hwake hsent
  rw [hqueue] at hmem
  exact absurd hmem (by simp)

/-- One more thing in the last round keeps what is owed, if it is no wait after a switch and no
giving up. -/
theorem Heeds.note (h : Heeds retry worker) {happened : Happened} {queue : List Wake} {failures : ℕ}
    {ready : Bool}
    {phase : Phase} (habandoned : happened ≠ .abandoned) (hidled : ∀ time, happened = .idled time →
      .sent .switch ∉ worker.round) (hgave : worker.phase ≠ .ended .gaveUp)
    (hlive : ∀ how, phase ≠ .ended how) :
    Heeds retry ⟨phase, queue, failures, ready, worker.round ++ [happened], worker.past⟩ where
  stops := h.stops
  switches round hround := by
    rcases List.mem_cons.mp hround with hnew | hold
    · rw [hnew, List.pairwise_append]
      refine ⟨h.switches _ List.mem_cons_self, List.pairwise_singleton _ _, ?_⟩
      intro before hbefore after hafter hswitch
      rw [List.mem_singleton.mp hafter]
      refine ⟨habandoned, fun time htime => ?_⟩
      apply hidled time htime
      rw [← hswitch]
      exact hbefore
    · exact h.switches round (List.mem_cons_of_mem _ hold)
  follows how hphase := absurd hphase (hlive how)
  gives hmem := by
    rcases List.mem_append.mp hmem with hold | hnew
    · have hcount := h.abandons
      rw [if_neg hgave, List.count_eq_zero] at hcount
      exact absurd (List.mem_flatten.mpr ⟨_, List.mem_cons_self, hold⟩) hcount
    · exact absurd (List.mem_singleton.mp hnew).symm habandoned
  abandons := by
    have hcount := h.abandons
    rw [if_neg hgave] at hcount
    rw [if_neg (hlive _)]
    rw [List.flatten_cons, List.count_append] at hcount ⊢
    rw [List.count_append, List.count_singleton]
    simp only [beq_iff_eq, habandoned, if_false]
    omega
  waits := h.waits
  causes := h.causes

/-- The next build begins, once what woke the worker is taken. -/
theorem Heeds.build (h : Heeds retry worker) {failures : ℕ} (hlive : worker.Live)
    (hstop : .sent .stop ∉ worker.round)
    (hwaits : ∀ before after, worker.round = before ++ .dies :: after →
      idle after = retry.pause ∨ .sent .switch ∈ after)
    (hcause : .failed ∈ worker.round ∨ .sent .died ∈ worker.round ∨ .sent .switch ∈ worker.round) :
    Heeds retry ({ worker with queue := [], failures := failures } : Worker).build where
  stops round hround := by
    rcases List.mem_cons.mp hround with hnew | hold
    · rw [hnew]
      exact hstop
    · exact h.stops round hold
  switches round hround := by
    rcases List.mem_cons.mp hround with hnew | hold
    · rw [hnew]
      exact List.Pairwise.nil
    · exact h.switches round hold
  follows how hphase := by cases hphase
  gives hmem := absurd hmem List.not_mem_nil
  abandons := by
    have hcount := h.abandons
    rw [if_neg (hlive _)] at hcount
    rw [if_neg (by simp [Worker.build])]
    exact hcount
  waits round hround := by
    rcases List.mem_cons.mp hround with hnew | hold
    · rw [hnew]
      exact hwaits
    · exact h.waits round hold
  causes round hround := by
    rcases List.mem_cons.mp hround with hnew | hold
    · rw [hnew]
      exact hcause
    · exact h.causes round hold

theorem Fits.build (h : Fits retry worker) {failures : ℕ} (hlive : worker.Live)
    (hstop : .sent .stop ∉ worker.round)
    (hwaits : ∀ before after, worker.round = before ++ .dies :: after →
      idle after = retry.pause ∨ .sent .switch ∈ after)
    (hcause : .failed ∈ worker.round ∨ .sent .died ∈ worker.round ∨ .sent .switch ∈ worker.round)
    (hfailures : failures = streak (worker.round :: worker.past)) :
    Fits retry ({ worker with queue := [], failures := failures } : Worker).build where
  heeds := h.heeds.build hlive hstop hwaits hcause
  queued _ hwake := absurd hwake List.not_mem_nil
  pending _ _ _ hsent := absurd hsent List.not_mem_nil
  stands := ⟨List.not_mem_nil, List.not_mem_nil, hfailures⟩

theorem streak_of_not {round : Round} {past : List Round} (h : ¬ Unswitched round) :
    streak (round :: past) = 0 := by
  simp [streak, h]

theorem streak_of {round : Round} {past : List Round} (h : Unswitched round) :
    streak (round :: past) = streak past + 1 := by
  simp [streak, h]

theorem Fits.send (h : Fits retry worker) (wake : Wake)
    (hs : worker.step retry (.send wake) = some next) :
    Fits retry next := by
  rw [Worker.step] at hs
  by_cases hlive : worker.Live
  · have hnext :
        next = ({ worker with queue := worker.queue ++ [wake] } : Worker).note (.sent wake) := by
      cases hphase : worker.phase <;> simp only [hphase, Option.some.injEq] at hs
      · exact hs.symm
      · exact hs.symm
      · exact hs.symm
      · exact absurd hphase (hlive _)
    -- The round has what was sent last, and the channel has it too.
    have hin : ∀ {happened : Happened}, happened ∈ worker.round ++ [.sent wake] ↔
        happened ∈ worker.round ∨ happened = .sent wake := by
      intro happened
      rw [List.mem_append, List.mem_singleton]
    rw [hnext]
    refine ⟨h.heeds.note (by simp) (by simp) (hlive _) hlive, ?_, ?_, ?_⟩
    · intro other hother
      apply hin.mpr
      rcases List.mem_append.mp hother with hold | hnew
      · exact Or.inl (h.queued other hold)
      · exact Or.inr (by rw [List.mem_singleton.mp hnew])
    · intro _ other hne hsent
      apply List.mem_append.mpr
      rcases hin.mp hsent with hold | hnew
      · exact Or.inl (h.pending hlive other hne hold)
      · injection hnew with hnew
        exact Or.inr (List.mem_singleton.mpr hnew)
    -- Being sent a wake does not change where the round stands.
    · have hstands := h.stands
      unfold Worker.Stands at hstands ⊢
      simp only [Worker.note] at hstands ⊢
      cases hphase : worker.phase with
      | building =>
        rw [hphase] at hstands
        simpa [hin] using hstands
      | playing =>
        rw [hphase] at hstands
        simpa [hin] using hstands
      | waiting left =>
        rw [hphase] at hstands
        rcases hstands with ⟨hfailed, hdies, hcount⟩ | ⟨hfailed, hdied, hcount, hsplit⟩
        · exact Or.inl ⟨hin.mpr (Or.inl hfailed), by simpa [hin] using hdies, hcount⟩
        · refine Or.inr ⟨by simpa [hin] using hfailed, hin.mpr (Or.inl hdied), hcount, ?_⟩
          intro before after heq
          -- The wake is the last of what came after the death, and no time passed with it.
          rcases List.eq_nil_or_concat after with rfl | ⟨most, last, rfl⟩
          · have hlast := (List.append_inj' heq rfl).2
            cases hlast
          · rw [List.concat_eq_append, ← List.cons_append, ← List.append_assoc] at heq
            obtain ⟨hround, hlast⟩ := List.append_inj' heq rfl
            injection hlast with hlast
            obtain ⟨hswitch, hidle⟩ := hsplit before most hround
            refine ⟨hswitch, ?_⟩
            rw [List.concat_eq_append, ← hlast]
            simpa [idle] using hidle
      | ended how => exact absurd hphase (hlive how)
  · obtain ⟨how, hphase⟩ := not_forall_not.mp hlive
    rw [hphase] at hs
    rw [← Option.some.inj hs]
    exact h

theorem built_false : worker.built retry false =
    if worker.ready = true then
      ⟨.ended .refused, worker.queue, worker.failures, false, worker.round ++ [.failed],
        worker.past⟩
    else if worker.failures + 1 ≥ retry.attempts then
      ⟨.ended .gaveUp, worker.queue, worker.failures + 1, worker.ready,
        worker.round ++ [.failed] ++ [.abandoned], worker.past⟩
    else
      ⟨.waiting retry.pause, worker.queue, worker.failures + 1, worker.ready,
        worker.round ++ [.failed], worker.past⟩ := rfl

theorem Fits.built (h : Fits retry worker) (ok : Bool) (hallowed : Allowed retry worker (.built ok))
    (hphase : worker.phase = .building) : Fits retry (worker.built retry ok) := by
  have hlive : worker.Live := by
    intro how
    rw [hphase]
    exact nofun
  have hstands := h.stands
  rw [Worker.Stands, hphase] at hstands
  obtain ⟨hfailed, hdies, hcount⟩ := hstands
  have hin : ∀ {happened last : Happened}, happened ∈ worker.round ++ [last] ↔
      happened ∈ worker.round ∨ happened = last := by
    intro happened last
    rw [List.mem_append, List.mem_singleton]
  cases ok with
  -- It plays: nothing has failed or died in this round.
  | true =>
    refine ⟨h.heeds.note (by simp) (by simp) (hlive _) (by simp), ?_, ?_, ?_⟩
    · exact fun wake hwake => hin.mpr (Or.inl (h.queued wake hwake))
    · intro _ wake hne hsent
      exact h.pending hlive wake hne ((hin.mp hsent).resolve_right (by simp))
    · exact ⟨fun hmem => hfailed ((hin.mp hmem).resolve_right (by simp)),
        fun hmem => hdies ((hin.mp hmem).resolve_right (by simp)), rfl⟩
  -- The stream could not be made: `failed` is noted, then one of three ends.
  | false =>
    have hnoted : ∀ {phase : Phase} {failures : ℕ} {ready : Bool}, (∀ how, phase ≠ .ended how) →
        Heeds retry ⟨phase, worker.queue, failures, ready, worker.round ++ [.failed],
          worker.past⟩ := fun hphase =>
      h.heeds.note (by simp) (by simp) (hlive _) hphase
    have hbuilding : Heeds retry
        ⟨.building, worker.queue, worker.failures, worker.ready, worker.round ++ [.failed],
          worker.past⟩ :=
      hnoted (by simp)
    have hnone := hbuilding.abandons
    rw [if_neg (by simp)] at hnone
    rw [built_false]
    -- Somebody still waits for the first stream: they are refused, and it ends.
    by_cases hready : worker.ready = true
    · rw [if_pos hready]
      refine ⟨⟨hbuilding.stops, hbuilding.switches, ?_, hbuilding.gives, ?_, hbuilding.waits,
        hbuilding.causes⟩, ?_, ?_, ?_⟩
      · intro how hended _
        injection hended with hended
        exact Or.inl hended.symm
      · rw [if_neg (by simp)]
        exact hnone
      · exact fun wake hwake => hin.mpr (Or.inl (h.queued wake hwake))
      · exact fun hlive => absurd rfl (hlive _)
      · trivial
    · rw [if_neg hready]
      by_cases hlast : worker.failures + 1 ≥ retry.attempts
      · -- It gives up, with no switch in the channel, so none in the round.
        rw [if_pos hlast]
        have hswitch : .sent .switch ∉ worker.round := by
          intro hsent
          have hqueued := h.pending hlive .switch (by simp) hsent
          rcases hallowed with hfirst | hless | hnot
          · exact hready hfirst
          · omega
          · exact hnot hqueued
        have hswitch' : .sent .switch ∉ worker.round ++ [.failed] := by simpa [hin] using hswitch
        refine ⟨⟨h.heeds.stops, ?_, ?_, ?_, ?_, h.heeds.waits, h.heeds.causes⟩, ?_, ?_, trivial⟩
        · intro round hround
          rcases List.mem_cons.mp hround with hnew | hold
          · rw [hnew, List.pairwise_append]
            refine ⟨hbuilding.switches _ List.mem_cons_self, List.pairwise_singleton _ _, ?_⟩
            intro before hbefore _ _ hsent
            rw [hsent] at hbefore
            exact absurd hbefore hswitch'
          · exact h.heeds.switches round (List.mem_cons_of_mem _ hold)
        · intro how _ hsent
          rcases List.mem_append.mp hsent with hold | hnew
          · exact absurd hold hswitch'
          · exact absurd (List.mem_singleton.mp hnew) (by simp)
        · intro _
          rw [streak_of ⟨by simp, by simpa [hin] using hswitch⟩, ← hcount]
          exact hlast
        · rw [if_pos rfl]
          simp only [List.flatten_cons, List.count_append, List.count_singleton_self] at hnone ⊢
          omega
        · exact fun wake hwake => List.mem_append_left _ (hin.mpr (Or.inl (h.queued wake hwake)))
        · exact fun hlive => absurd rfl (hlive _)
      -- It waits for its next try, one failure more.
      · rw [if_neg hlast]
        refine ⟨hnoted (by simp), ?_, ?_, ?_⟩
        · exact fun wake hwake => hin.mpr (Or.inl (h.queued wake hwake))
        · intro _ wake hne hsent
          exact h.pending hlive wake hne ((hin.mp hsent).resolve_right (by simp))
        · exact Or.inl ⟨hin.mpr (Or.inr rfl), by simpa [hin] using hdies, by rw [hcount]⟩

/-- Told to stop, it ends. -/
theorem Fits.stopped (h : Fits retry worker) (hlive : worker.Live)
    (hsent : .sent .stop ∈ worker.round) :
    Fits retry { worker with phase := .ended .stopped, queue := [] } := by
  have hnone := h.heeds.abandons
  rw [if_neg (hlive _)] at hnone
  refine ⟨⟨h.heeds.stops, h.heeds.switches, fun _ _ _ => Or.inr hsent, h.heeds.gives, ?_,
    h.heeds.waits, h.heeds.causes⟩, fun wake hwake => absurd hwake List.not_mem_nil,
    fun hlive' => absurd rfl (hlive' _), trivial⟩
  rw [if_neg (by simp)]
  exact hnone

theorem Fits.hears (h : Fits retry worker) (hs : worker.step retry .hears = some next) :
    Fits retry next := by
  rw [Worker.step] at hs
  split at hs
  · cases hs
  · next first more hqueue =>
    rw [Worker.hears] at hs
    have hmem := @strongest_mem first more
    have hstop := @strongest_stop first more
    have hdied := @strongest_died first more
    rw [← hqueue] at hmem hstop hdied
    have hsent := h.queued _ hmem
    have hstands := h.stands
    rw [Worker.Stands] at hstands
    cases hphase : worker.phase with
    | building => simp only [hphase] at hs; cases hs
    | ended how => simp only [hphase] at hs; cases hs
    | playing =>
      have hlive : worker.Live := by
        intro how
        rw [hphase]
        exact nofun
      rw [hphase] at hstands
      obtain ⟨hfailed, hdies, hcount⟩ := hstands
      simp only [hphase] at hs
      cases hwoke : strongest more first with
      | died =>
        -- The stream's death alone: the pause begins.
        have hswitch : .sent .switch ∉ worker.round := fun hin =>
          absurd (hdied.mp hwoke _ (h.pending hlive .switch (by simp) hin)) (by simp)
        have hnostop : .sent .stop ∉ worker.round := fun hin =>
          absurd (hdied.mp hwoke _ (h.pending hlive .stop (by simp) hin)) (by simp)
        rw [hwoke] at hs hsent
        rw [← Option.some.inj hs]
        refine ⟨h.heeds.note (by simp) (by simp) (hlive _) (by simp), ?_, ?_, ?_⟩
        · exact fun wake hwake => absurd hwake List.not_mem_nil
        · intro _ wake hne hin
          rcases List.mem_append.mp hin with hold | hnew
          · cases wake with
            | died => exact absurd rfl hne
            | switch => exact absurd hold hswitch
            | stop => exact absurd hold hnostop
          · exact absurd (List.mem_singleton.mp hnew) (by simp)
        · refine Or.inr ⟨?_, List.mem_append_left _ hsent, hcount, ?_⟩
          · intro hin
            rcases List.mem_append.mp hin with hold | hnew
            · exact hfailed hold
            · exact absurd (List.mem_singleton.mp hnew) (by simp)
          · intro before after heq
            -- The death is the last thing of the round, which had none before.
            rcases List.eq_nil_or_concat after with rfl | ⟨most, last, rfl⟩
            · obtain ⟨hround, -⟩ := List.append_inj' heq rfl
              rw [← hround]
              exact ⟨hswitch, Nat.zero_add _⟩
            · rw [List.concat_eq_append, ← List.cons_append, ← List.append_assoc] at heq
              obtain ⟨hround, -⟩ := List.append_inj' heq rfl
              have hin : .dies ∈ worker.round := by
                rw [hround]
                exact List.mem_append_right _ List.mem_cons_self
              exact absurd hin hdies
      -- A switch in the channel: the round is over, and it builds anew.
      | switch =>
        have hnostop : .sent .stop ∉ worker.round := by
          intro hin
          have hall := hstop.mpr (h.pending hlive .stop (by simp) hin)
          rw [hwoke] at hall
          cases hall
        rw [hwoke] at hs hsent
        rw [← Option.some.inj hs]
        apply h.build hlive hnostop
        · intro before after heq
          have hin : .dies ∈ worker.round := by
            rw [heq]
            exact List.mem_append_right _ List.mem_cons_self
          exact absurd hin hdies
        · exact Or.inr (Or.inr hsent)
        · rw [streak_of_not fun hun => hfailed hun.1, hcount]
      | stop =>
        rw [hwoke] at hs hsent
        rw [← Option.some.inj hs]
        exact h.stopped hlive hsent
    | waiting left =>
      have hlive : worker.Live := by
        intro how
        rw [hphase]
        exact nofun
      rw [hphase] at hstands
      simp only [hphase] at hs
      cases hwoke : strongest more first with
      | died =>
        -- Another ring of the death being waited out.
        rw [hwoke] at hs
        rw [← Option.some.inj hs]
        refine ⟨⟨h.heeds.stops, h.heeds.switches, fun how hended => absurd hended (by simp),
          h.heeds.gives, ?_, h.heeds.waits, h.heeds.causes⟩,
          fun wake hwake => absurd hwake List.not_mem_nil, ?_, hstands⟩
        · have hnone := h.heeds.abandons
          rw [if_neg (hlive _)] at hnone
          rw [if_neg (by simp)]
          exact hnone
        · intro _ wake hne hin
          exact absurd (hdied.mp hwoke _ (h.pending hlive wake hne hin)) hne
      | switch =>
        have hnostop : .sent .stop ∉ worker.round := by
          intro hin
          have hall := hstop.mpr (h.pending hlive .stop (by simp) hin)
          rw [hwoke] at hall
          cases hall
        rw [hwoke] at hs hsent
        rw [← Option.some.inj hs]
        apply h.build hlive hnostop
        · intro before after heq
          right
          rcases hstands with ⟨-, hdies, -⟩ | ⟨-, -, -, hsplit⟩
          · apply absurd _ hdies
            rw [heq]
            exact List.mem_append_right _ List.mem_cons_self
          · rw [heq] at hsent
            rcases List.mem_append.mp hsent with hbefore | hafter
            · exact absurd hbefore (hsplit before after heq).1
            · exact (List.mem_cons.mp hafter).resolve_left (by simp)
        · exact Or.inr (Or.inr hsent)
        · rw [streak_of_not fun hun => hun.2 hsent]
      | stop =>
        rw [hwoke] at hs hsent
        rw [← Option.some.inj hs]
        exact h.stopped hlive hsent

theorem Fits.timesOut (h : Fits retry worker) (hs : worker.step retry .timesOut = some next) :
    Fits retry next := by
  rw [Worker.step] at hs
  split at hs
  · next hdue =>
    obtain ⟨hphase, hqueue⟩ := hdue
    have hlive : worker.Live := by
      intro how
      rw [hphase]
      exact nofun
    have hstands := h.stands
    rw [Worker.Stands, hphase] at hstands
    have hworker : worker = { worker with queue := [] } := by rw [← hqueue]
    rw [← Option.some.inj hs, hworker]
    apply h.build hlive (h.unsent hlive hqueue (by simp))
    -- The pause that began with the death has been waited out.
    · intro before after heq
      left
      rcases hstands with ⟨-, hdies, -⟩ | ⟨-, -, -, hsplit⟩
      · apply absurd _ hdies
        rw [heq]
        exact List.mem_append_right _ List.mem_cons_self
      · exact (hsplit before after heq).2
    · rcases hstands with ⟨hfailed, -⟩ | ⟨-, hdied, -⟩
      · exact Or.inl hfailed
      · exact Or.inr (Or.inl hdied)
    · rcases hstands with ⟨hfailed, -, hcount⟩ | ⟨hfailed, -, hcount, -⟩
      · rw [streak_of ⟨hfailed, h.unsent hlive hqueue (by simp)⟩, hcount]
      · rw [streak_of_not fun hun => hfailed hun.1, hcount]
  · cases hs

/-- Time passes only while nothing waits in the channel. -/
theorem Fits.passes (h : Fits retry worker) (time : ℕ)
    (hs : worker.step retry (.passes time) = some next) :
    Fits retry next := by
  rw [Worker.step] at hs
  split at hs
  · cases hs
  · next hnot =>
    have hqueue := not_not.mp hnot
    have hstands := h.stands
    rw [Worker.Stands] at hstands
    -- Time adds only itself to the round.
    have hin : ∀ {happened : Happened}, happened ∈ worker.round ++ [.idled time] ↔
        happened ∈ worker.round ∨ happened = .idled time := by
      intro happened
      rw [List.mem_append, List.mem_singleton]
    cases hphase : worker.phase with
    | building => simp only [hphase] at hs; cases hs
    | ended how => simp only [hphase] at hs; cases hs
    | playing =>
      have hlive : worker.Live := by
        intro how
        rw [hphase]
        exact nofun
      rw [hphase] at hstands
      obtain ⟨hfailed, hdies, hcount⟩ := hstands
      simp only [hphase] at hs
      rw [← Option.some.inj hs]
      refine ⟨h.heeds.note (by simp) (fun _ _ => h.unsent hlive hqueue (by simp)) (hlive _) hlive,
        ?_, ?_, ?_⟩
      · exact fun wake hwake => hin.mpr (Or.inl (h.queued wake hwake))
      · intro _ wake hne hsent
        exact h.pending hlive wake hne ((hin.mp hsent).resolve_right (by simp))
      · rw [Worker.Stands, Worker.note, hphase]
        exact ⟨fun hmem => hfailed ((hin.mp hmem).resolve_right (by simp)),
          fun hmem => hdies ((hin.mp hmem).resolve_right (by simp)), hcount⟩
    | waiting left =>
      have hlive : worker.Live := by
        intro how
        rw [hphase]
        exact nofun
      rw [hphase] at hstands
      simp only [hphase] at hs
      split at hs
      · next hle =>
        rw [← Option.some.inj hs]
        refine ⟨h.heeds.note (by simp) (fun _ _ => h.unsent hlive hqueue (by simp)) (hlive _)
          (by simp), ?_, ?_, ?_⟩
        · exact fun wake hwake => hin.mpr (Or.inl (h.queued wake hwake))
        · intro _ wake hne hsent
          exact h.pending hlive wake hne ((hin.mp hsent).resolve_right (by simp))
        · rcases hstands with ⟨hfailed, hdies, hcount⟩ | ⟨hfailed, hdied, hcount, hsplit⟩
          · exact Or.inl ⟨hin.mpr (Or.inl hfailed),
              fun hmem => hdies ((hin.mp hmem).resolve_right (by simp)), hcount⟩
          · refine Or.inr ⟨fun hmem => hfailed ((hin.mp hmem).resolve_right (by simp)),
              hin.mpr (Or.inl hdied), hcount, ?_⟩
            -- What idled since the death is more by what passed.
            intro before after heq
            rcases List.eq_nil_or_concat after with rfl | ⟨most, last, rfl⟩
            · have hlast := (List.append_inj' heq rfl).2
              cases hlast
            · rw [List.concat_eq_append, ← List.cons_append, ← List.append_assoc] at heq
              obtain ⟨hround, hlast⟩ := List.append_inj' heq rfl
              injection hlast with hlast
              obtain ⟨hswitch, hidle⟩ := hsplit before most hround
              have hmore : idle (most.concat last) = idle most + time := by
                rw [List.concat_eq_append, ← hlast]
                simp [idle]
              exact ⟨hswitch, by omega⟩
      · cases hs

/-- Step lemma: a step that is allowed keeps the worker in order. -/
theorem Fits.step (h : Fits retry worker) {event : Event} (hallowed : Allowed retry worker event)
    (hs : worker.step retry event = some next) : Fits retry next := by
  cases event with
  | send wake => exact h.send wake hs
  | built ok =>
    rw [Worker.step] at hs
    split at hs
    · next hphase =>
      rw [← Option.some.inj hs]
      exact h.built ok hallowed hphase
    · cases hs
  | hears => exact h.hears hs
  | timesOut => exact h.timesOut hs
  | passes time => exact h.passes time hs

end Invariant

/-- In every run where no switch waits while the last build allowed fails, the worker heeds every
wake. -/
theorem wakes_heeded (retry : Retry) (events : List Event) (worker : Worker)
    (hmeets : (machine retry).Meets (Allowed retry) events)
    (hrun : (machine retry).run events = some worker) :
    Heeds retry worker :=
  ((machine retry).invariant_of_meets start_fits
    (fun _ _ _ h hallowed hs => h.step hallowed hs) hmeets hrun).heeds

instance (retry : Retry) (worker : Worker) (event : Event) :
    Decidable (Allowed retry worker event) := by
  unfold Allowed
  split <;> infer_instance

/-- A stream dies and rings twice, a switch comes while the build after it fails, and a stop behind
a death. -/
def woken : List Event :=
  [.built true, .send .died, .hears, .passes 2, .send .died, .hears, .passes 3, .timesOut,
    .send .switch, .built false, .hears, .built true, .passes 9, .send .died, .send .stop, .hears]

theorem wakes_heeded_woken :
    ∃ worker, (machine ⟨5, 2⟩).run woken = some worker ∧ worker.past.length = 2 ∧
    worker.phase = .ended .stopped ∧ Heeds ⟨5, 2⟩ worker := by
  obtain ⟨worker, hr⟩ :=
    Option.isSome_iff_exists.mp (show ((machine ⟨5, 2⟩).run woken).isSome = true by decide)
  have hend : ((machine ⟨5, 2⟩).run woken).any (fun worker => worker.past.length = 2 ∧
      worker.phase = .ended .stopped) = true := by decide
  rw [hr] at hend
  obtain ⟨hbuilds, hphase⟩ := of_decide_eq_true hend
  exact ⟨worker, hr, hbuilds, hphase, wakes_heeded ⟨5, 2⟩ woken worker (by decide) hr⟩

/-- A switch comes while the last build allowed is failing: the worker gives up, and nothing is
built for it. -/
theorem switch_lost : ¬ ∀ worker, (machine ⟨5, 2⟩).run
    [.built true, .send .died, .hears, .passes 5, .timesOut, .built false,
    .passes 5, .timesOut, .send .switch, .built false] = some worker → Heeds ⟨5, 2⟩ worker := by
  intro hclaim
  have hheeds := hclaim ⟨.ended .gaveUp, [.switch], 2, false, [.sent .switch, .failed, .abandoned],
    [[.failed, .idled 5], [.played, .sent .died, .dies, .idled 5]]⟩ (by decide)
  have hfollows := hheeds.follows .gaveUp rfl (by decide)
  revert hfollows
  decide

end Linger.AudioWorker
