import Linger.Crossfade
import Mathlib.Data.List.Chain
import Mathlib.Order.Interval.Finset.Nat

/-! One peer's audio waiting to be played, with the device at `SAMPLE_RATE`: what `feed` puts in the
queue, what the output callback takes from it, and what a listener hears across a gap. The factors
of the fade and what is learned of late frames are exact. -/
namespace Linger.VoiceLane
open Crossfade

/-- An `i16`. -/
abbrev Sample := {value : ℤ // -32768 ≤ value ∧ value ≤ 32767}

/-- `as i16`: toward zero, and held at the ends. -/
def toSample (value : ℚ) : Sample :=
  ⟨max (-32768) (min (trunc value) 32767), by omega, by omega⟩

def silence : Sample := ⟨0, by decide, by decide⟩

def sampleRate : ℕ := 48000

/-- `per_ms`, at `SAMPLE_RATE`. -/
def perMs : ℕ := sampleRate / 1000

def maxQueuedMs : ℕ := 250
def cushionMs : ℕ := 60
def mostCushionMs : ℕ := 150
def spareMs : ℕ := 20
def easeMsPerFrame : ℚ := 4 / 100
def pauseMs : ℕ := 250
def fadeMs : ℕ := 3

/-- How many samples a voice fades back in over. -/
def fadeLen : ℕ := perMs * fadeMs

/-- One peer's audio, waiting to be played. -/
structure Lane where
  queue : List Sample
  gain : ℚ
  fresh : Bool
  starved : ℕ
  skipped : Bool
  tail : ℤ
  ahead : ℕ
  lateMs : ℚ

/-- A frame that arrived after its lane had run dry in the middle of a sentence. -/
structure Hole where
  ms : ℕ
  headStartMs : ℕ
deriving DecidableEq

/-- Multiply a frame by a gain, clamped to the sample range. -/
def scale (samples : List Sample) (gain : ℚ) : List Sample :=
  samples.map fun sample => toSample (sample.1 * gain)

/-- The frame's samples from the given one on, eased from where the fade out had got to. -/
def fadeFrom (tail : ℤ) : ℕ → List Sample → List Sample
  | _, [] => []
  | part, sample :: samples =>
    (if part < fadeLen then toSample (mixed tail fadeLen part sample.1) else sample) ::
      fadeFrom tail (part + 1) samples

namespace Lane

def new : Lane := ⟨[], 1, true, 0, false, 0, 0, 0⟩

/-- How far behind a sentence of theirs starts. -/
def headStart (lane : Lane) : ℕ := min (max (⌈lane.lateMs⌉.toNat + spareMs) cushionMs) mostCushionMs

/-- Silence up to this person's head start. -/
def topUp (lane : Lane) : Lane :=
  let queue := lane.queue ++ List.replicate (perMs * lane.headStart - lane.queue.length) silence
  { lane with queue := queue, ahead := queue.length }

/-- What is learned of how late a frame came. -/
def learn (lane : Lane) (waited : ℕ) : Lane :=
  let late : ℚ := ((lane.ahead : ℤ) - ((lane.queue.length : ℤ) - waited) : ℤ) / perMs
  { lane with lateMs := if lane.lateMs < late then late else max (lane.lateMs - easeMsPerFrame) 0 }

/-- What `feed` does before the frame is queued. -/
def ready (lane : Lane) : Lane × Option Hole :=
  let waited := lane.starved
  let taken := { lane with starved := 0, skipped := false, fresh := false }
  if lane.fresh ∨ (lane.skipped ∧ 0 < waited) ∨ perMs * pauseMs ≤ waited then (taken.topUp, none)
  else if lane.skipped then ({ taken with ahead := taken.queue.length }, none)
  else
    let learned := taken.learn waited
    if 0 < waited then (learned.topUp, some ⟨min (waited / perMs) (2 ^ 32 - 1), learned.headStart⟩)
      else (learned, none)

def withQueue (lane : Lane) (queue : List Sample) : Lane := { lane with queue := queue }

/-- Queue one decoded frame for the output callback. -/
def feed (lane : Lane) (frame : List Sample) : Lane × Option Hole :=
  let readied := lane.ready.1
  let hole := lane.ready.2
  let samples := if |lane.gain - 1| < 1 / 2 ^ 23 then frame else scale frame lane.gain
  let queue := readied.queue ++ if hole.isSome then fadeFrom readied.tail 0 samples else samples
  -- What is too long is thrown away, the oldest first.
  (readied.withQueue (queue.drop (queue.length - perMs * maxQueuedMs)), hole)

/-- What `mix_all` takes of the lane for one frame of the output: the lane's `tail` is what it
adds. -/
def pull (lane : Lane) : Lane :=
  match lane.queue with
  | sample :: queue => { lane with queue := queue, tail := sample.1 }
  | [] => { lane with starved := lane.starved + 1, tail := (lane.tail * 63).tdiv 64 }

/-- `Sink::resume`: their app sent nothing for a stretch before the next frame. -/
def resume (lane : Lane) : Lane := { lane with skipped := true }

end Lane

/-- What the lane adds to one frame of the output: a sample of the voice, or the fade of the last
one. -/
inductive Heard where
  | voice (sample : ℤ)
  | fading (sample : ℤ)
deriving DecidableEq

def Heard.sample : Heard → ℤ
  | .voice sample | .fading sample => sample

def Heard.isFading : Heard → Bool
  | .voice _ => false
  | .fading _ => true

/-- A lane, and what it has added so far, the latest first. -/
structure Ear where
  lane : Lane
  heard : List Heard

/-- What happens to a lane. A chunk of the output callback is as many pulls as it has frames. -/
inductive Moment where
  | feed (frame : List Sample)
  | resume
  | pull
deriving DecidableEq

def Lane.on (lane : Lane) : Moment → Lane
  | .feed frame => (lane.feed frame).1
  | .resume => lane.resume
  | .pull => lane.pull

namespace Ear

def new : Ear := ⟨.new, []⟩

def on (ear : Ear) (moment : Moment) : Ear :=
  let lane := ear.lane.on moment
  match moment with
  | .pull =>
    ⟨lane, (if ear.lane.queue = [] then .fading lane.tail else .voice lane.tail) :: ear.heard⟩
  | _ => ⟨lane, ear.heard⟩

def after (moments : List Moment) : Ear := moments.foldl on new

/-- The last sample of the voice that played. -/
def last (ear : Ear) : ℤ := ((ear.heard.find? fun heard => !heard.isFading).map Heard.sample).getD 0

/-- What was heard since, in order, and that sample before it. -/
def sinceLast (ear : Ear) : List ℤ :=
  ear.last :: ((ear.heard.takeWhile Heard.isFading).map Heard.sample).reverse

end Ear

/-- Of the queue's samples, how many are silence put in front of a frame that answered a hole, and
how many there are to the end of its fade in. -/
structure Gap where
  silence : ℕ
  left : ℕ

/-- The queue's first samples go. -/
def Gap.drop (gap : Gap) (samples : ℕ) : Gap := ⟨gap.silence - samples, gap.left - samples⟩

/-- The gap that a frame closes, as its samples are queued behind the silence in front of it. -/
def Lane.gap (lane : Lane) (frame : List Sample) : Gap :=
  ⟨lane.ready.1.queue.length, lane.ready.1.queue.length + min fadeLen frame.length⟩

/-- A frame makes the queue too long by so many samples. -/
def Lane.thrownBy (lane : Lane) (frame : List Sample) : ℕ :=
  (lane.ready.1.queue.length + frame.length) - perMs * maxQueuedMs

/-- What becomes of the gap. -/
def Gap.on (gap : Gap) (lane : Lane) : Moment → Gap
  | .feed frame => gap.drop (lane.thrownBy frame)
  | .resume => gap
  | .pull => gap.drop 1

/-- What the lane adds to the end of the fade in. -/
def across (lane : Lane) (gap : Gap) : List Moment → List ℤ
  | [] => []
  | moment :: moments =>
    if gap.left = 0 then []
    else
      let following := across (lane.on moment) (gap.on lane moment) moments
      match moment with
      | .pull => lane.pull.tail :: following
      | _ => following

/-- Some of the silence in front of the frame is heard. -/
def Quiet (lane : Lane) (gap : Gap) : List Moment → Prop
  | [] => False
  | .pull :: _ => 0 < gap.silence
  | moment :: moments => Quiet (lane.on moment) (gap.on lane moment) moments

/-- Until the fade in has played, frames throw away nothing but the silence in front of it. -/
def Spares (lane : Lane) (gap : Gap) : List Moment → Prop
  | [] => True
  | moment :: moments =>
    gap.left = 0 ∨
      (∀ frame, moment = .feed frame → lane.thrownBy frame ≤ gap.silence) ∧
        Spares (lane.on moment) (gap.on lane moment) moments

/-- The largest difference between neighbouring samples. -/
def steepest (frame : List Sample) : ℕ :=
  ((frame.zip frame.tail).map fun pair => (pair.2.1 - pair.1.1).natAbs).foldr max 0

/-- The largest magnitude. -/
def loudest (frame : List Sample) : ℕ := (frame.map fun sample => sample.1.natAbs).foldr max 0

/-- The most that neighbours across a gap may differ, by the last sample before it and the frame
after it. -/
def bound (last : ℤ) (frame : List Sample) : ℚ :=
  max (|(last : ℚ)| / 64)
    (steepest frame + (|(last : ℚ)| + loudest (frame.take fadeLen)) / fadeLen) + 1

/-- Every two neighbours differ by no more. -/
def Smooth (most : ℚ) (samples : List ℤ) : Prop :=
  samples.IsChain fun (first next : ℤ) => |(next : ℚ) - first| ≤ most

end Linger.VoiceLane
