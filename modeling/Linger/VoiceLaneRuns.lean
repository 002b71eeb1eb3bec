import Linger.VoiceLaneFades

/-! Whole runs of a lane, over changes of the device too: silence is only put where there is
silence, what plays is what was fed and in that order, and a voice whose frames come on time ends no
further behind than every voice starts. -/
namespace Linger.VoiceLane

/-- The device changed: what was queued was for the old one. -/
def Lane.retune (lane : Lane) : Lane :=
  { lane with queue := [], fresh := true, starved := 0, skipped := false, tail := 0 }

/-- What happens to a lane, the device among it. -/
inductive Event where
  | feed (frame : List Sample)
  | resume
  | retune
  | pull
deriving DecidableEq

namespace Lane

def next (lane : Lane) : Event → Lane
  | .feed frame => (lane.feed frame).1
  | .resume => lane.resume
  | .retune => lane.retune
  | .pull => lane.pull

def run (lane : Lane) (events : List Event) : Lane := events.foldl next lane

/-- What an event puts in the queue: a frame, behind such silence as tops the queue up. -/
def put (lane : Lane) : Event → List Sample
  | .feed frame => lane.ready.1.queue.drop lane.queue.length ++ lane.queued frame
  | _ => []

/-- What leaves the queue, the oldest first, and whether it is heard or thrown away. -/
def gone (lane : Lane) : Event → List (Sample × Bool)
  | .feed frame =>
    ((lane.queue ++ lane.put (.feed frame)).take (lane.thrownBy frame)).map (·, false)
  | .pull => (lane.queue.take 1).map (·, true)
  | _ => []

def putBy (lane : Lane) : List Event → List Sample
  | [] => []
  | event :: events => lane.put event ++ (lane.next event).putBy events

def goneBy (lane : Lane) : List Event → List (Sample × Bool)
  | [] => []
  | event :: events => lane.gone event ++ (lane.next event).goneBy events

/-- By how many samples a frame that comes now is late, against the last place a sentence landed. -/
def lateness (lane : Lane) : ℤ := lane.ahead - (lane.queue.length - lane.starved)

/-- A frame that comes now is one of a sentence that runs on, and tells how late it is. -/
def RunsOn (lane : Lane) : Prop :=
  lane.fresh = false ∧ lane.skipped = false ∧ lane.starved < perMs * pauseMs

instance (lane : Lane) : Decidable lane.RunsOn := inferInstanceAs (Decidable (_ ∧ _ ∧ _))

/-- While its frames keep coming on time. -/
def OnTime (lane : Lane) : List Event → Prop
  | [] => True
  | event :: events =>
    (∀ frame, event = .feed frame → lane.RunsOn → lane.lateness ≤ 0) ∧
      (lane.next event).OnTime events

/-- How many frames told how late they were. -/
def told (lane : Lane) : List Event → ℕ
  | [] => 0
  | event :: events =>
    (match event with
      | .feed _ => if lane.RunsOn then 1 else 0
      | _ => 0) + (lane.next event).told events

end Lane

/-- What is so of a lane at any time. -/
structure Standing (lane : Lane) : Prop where
  gain : lane.gain = 1
  fresh : lane.fresh = true → lane.queue = []
  dry : 0 < lane.starved → lane.queue = []
  late : 0 ≤ lane.lateMs

section Steps

variable {lane : Lane} {frame : List Sample} {event : Event} {events : List Event}

/-- What is learned of a frame on time: nothing new, and a little is forgotten. -/
theorem ready_late (lane : Lane) : lane.ready.1.lateMs =
    if lane.RunsOn then
      if lane.lateMs < (lane.lateness : ℚ) / perMs then (lane.lateness : ℚ) / perMs
      else max (lane.lateMs - easeMsPerFrame) 0
    else lane.lateMs := by
  unfold Lane.ready
  dsimp only
  split
  · next hstarts =>
    have hnot : ¬lane.RunsOn := by
      rintro ⟨hfresh, hskipped, hpause⟩
      rcases hstarts with hnew | ⟨hskip, -⟩ | hlong
      · simp [hfresh] at hnew
      · simp [hskipped] at hskip
      · omega
    rw [if_neg hnot]
    rfl
  · next hruns =>
    rw [not_or, not_or, Bool.not_eq_true, not_le] at hruns
    split
    · next hskipped =>
      have hnot : ¬lane.RunsOn := by
        rintro ⟨-, hskip, -⟩
        simp [hskipped] at hskip
      rw [if_neg hnot]
    · next hskipped =>
      rw [Bool.not_eq_true] at hskipped
      have hon : lane.RunsOn := ⟨hruns.1, hskipped, hruns.2.2⟩
      rw [if_pos hon]
      split
      · rfl
      · rfl

theorem feed_late (lane : Lane) (frame : List Sample) :
    (lane.feed frame).1.lateMs = lane.ready.1.lateMs := by
  have hlate : ∀ (lane : Lane) (queue : List Sample), (lane.withQueue queue).lateMs = lane.lateMs :=
    fun _ _ => rfl
  unfold Lane.feed
  dsimp only
  rw [hlate]

theorem Standing.next (h : Standing lane) (event : Event) : Standing (lane.next event) := by
  cases event with
  | feed frame =>
    obtain ⟨hgain, -, hstarved, hfresh, -⟩ := feed_rest lane frame
    refine ⟨hgain.trans h.gain, ?_, ?_, ?_⟩
    · intro hnew
      rw [Lane.next, hfresh] at hnew
      cases hnew
    · intro hdry
      rw [Lane.next, hstarved] at hdry
      cases hdry
    · rw [Lane.next, feed_late, ready_late]
      split
      · split
        · next hlate => exact h.late.trans hlate.le
        · exact le_max_right _ _
      · exact h.late
  | resume => exact ⟨h.gain, h.fresh, h.dry, h.late⟩
  | retune => exact ⟨h.gain, fun _ => rfl, fun _ => rfl, h.late⟩
  | pull =>
    rw [Lane.next, Lane.pull]
    cases hqueue : lane.queue with
    | nil => exact ⟨h.gain, fun _ => rfl, fun _ => rfl, h.late⟩
    | cons sample queue =>
      -- What is queued says that a frame came, and that nothing was waited for since.
      have hne : lane.queue ≠ [] := by simp [hqueue]
      exact ⟨h.gain, fun hfresh => absurd (h.fresh hfresh) hne, fun hdry => absurd (h.dry hdry) hne,
        h.late⟩

theorem Standing.run (h : Standing lane) (events : List Event) : Standing (lane.run events) := by
  induction events generalizing lane with
  | nil => exact h
  | cons event events ih => exact ih (h.next event)

end Steps

section Runs

variable {lane : Lane} {events later : List Event}

end Runs

/-- A voice that is never cut with silence and never drifts late, as its lane stands after some
events. -/
structure Steady (before : List Event) (lane : Lane) : Prop where
  /-- The queue never holds more than `MAX_QUEUED_MS` after a frame. -/
  capped : ∀ frame, (lane.feed frame).1.queue.length ≤ perMs * maxQueuedMs
  /-- A frame gets silence in front of it only where the queue is empty, and then enough and not too
  much. -/
  silent : ∀ frame, ∃ samples,
    lane.put (.feed frame) = List.replicate samples silence ++ lane.queued frame ∧
    (samples = 0 ∨ lane.queue = [] ∧ perMs * cushionMs ≤ samples ∧ samples ≤ perMs * mostCushionMs)
  /-- The frame is queued as it was fed, the fade in after a hole aside. -/
  fed : ∀ frame, (lane.queued frame).drop fadeLen = frame.drop fadeLen ∧
    (lane.queued frame).length = frame.length ∧
    ((lane.feed frame).2 = none → lane.queued frame = frame)
  /-- Since the device last changed, what left the queue and what is in it is what was put in, in
  order. -/
  ordered : ∀ earlier since, before = earlier ++ since → .retune ∉ since →
    (earlier = [] ∨ earlier.getLast? = some .retune) →
    (Lane.new.run earlier).putBy since = ((Lane.new.run earlier).goneBy since).map Prod.fst ++
      lane.queue
  /-- What is heard of the voice is what leaves the queue, and the fade of the last sample where
  nothing does. -/
  heard : lane.gone .pull = (lane.queue.take 1).map (·, true) ∧
    ∀ sample ∈ lane.queue.head?, lane.pull.tail = sample.1
  dry : 0 < lane.starved → lane.queue = []
  /-- A hole is answered where the lane ran dry in the middle of a sentence. -/
  hole : ∀ frame, (lane.feed frame).2.isSome ↔ lane.fresh = false ∧ lane.skipped = false ∧
    0 < lane.starved ∧ lane.starved < perMs * pauseMs
  /-- While frames keep coming on time the head start never rises, and it comes down to
  `CUSHION_MS`. -/
  settles : ∀ later, lane.OnTime later → (lane.run later).headStart ≤ lane.headStart ∧
    (lane.lateMs ≤ easeMsPerFrame * lane.told later → (lane.run later).headStart = cushionMs)

end Linger.VoiceLane
