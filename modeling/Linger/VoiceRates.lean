import Linger.StepMachine
import Linger.FiniteMap

/-! The rate voices are played at, between the calls of the engine and the worker that opens the
output device again. A locked section is one step, and so is a load or a store of the rate on its
own. -/
namespace Linger.VoiceRates
open FiniteMap StepMachine

abbrev Peer := ℕ

def sampleRate : ℕ := 48000

/-- A resampler: what it converts from and to. -/
structure Linear where
  source : ℕ
  target : ℕ
deriving DecidableEq

/-- One peer's lane, as far as the rate goes. -/
structure Lane where
  resampler : Option Linear
deriving DecidableEq

/-- What a lane needs to be heard at that rate: nothing at the engine's own. -/
def resamplerFor (rate : ℕ) : Option Linear :=
  if rate ≠ sampleRate then some ⟨sampleRate, rate⟩ else none

/-- `Lane::new`. -/
def Lane.new (rate : ℕ) : Lane := ⟨resamplerFor rate⟩

/-- `Lane::retune`. -/
def Lane.retune (_ : Lane) (rate : ℕ) : Lane := ⟨resamplerFor rate⟩

/-- A call under way, and the rate it loaded. -/
inductive Call
  | play (peer : Peer) (rate : ℕ)
  | setDeafened (deafened : Bool) (rate : ℕ)
  /-- Its lanes are done, and the screen's is next. -/
  | retuneScreen
deriving DecidableEq

/-- What `open_output` does next, once it has retuned the lanes. -/
inductive Stage
  | screen
  | cues
  | store
deriving DecidableEq

/-- The speaker: the rate last stored, its lanes, the rate the screen's lane is at, and what is
under way. The worker opens one device at a time. -/
structure Speaker where
  rate : ℕ
  lanes : FMap Peer Lane
  screen : ℕ
  deafened : Bool
  calls : FMap ℕ Call
  opening : Option (ℕ × Stage)

def Speaker.new : Speaker := ⟨sampleRate, ∅, sampleRate, false, ∅, none⟩

inductive Event
  /-- A call loads the rate. -/
  | play (call : ℕ) (peer : Peer)
  | setDeafened (call : ℕ) (deafened : Bool)
  /-- A call goes on. -/
  | goesOn (call : ℕ)
  /-- A volume is set: the rate is loaded with the lanes held. -/
  | setVolume (peer : Peer)
  | forget (peer : Peer)
  /-- The worker opens a device, and retunes the lanes first. -/
  | opens (rate : ℕ)
  | openGoesOn
deriving DecidableEq

/-- `lanes.entry(peer).or_insert_with(..)`. -/
def orInsert (lanes : FMap Peer Lane) (peer : Peer) (rate : ℕ) : FMap Peer Lane :=
  if (lanes[peer]?).isSome then lanes else lanes.insert peer (Lane.new rate)

def retuneAll (lanes : FMap Peer Lane) (rate : ℕ) : FMap Peer Lane :=
  lanes.map fun _ lane => lane.retune rate

/-- A call that holds the lanes: `play`'s, then `set_playback_deafened`. -/
def Speaker.goesOn (speaker : Speaker) (id : ℕ) : Call → Speaker
  | .play peer rate =>
    let speaker := { speaker with calls := speaker.calls.erase id }
    if speaker.deafened then speaker else { speaker with lanes := orInsert speaker.lanes peer rate }
  | .setDeafened deafened rate =>
    let speaker :=
      if speaker.deafened ≠ deafened then
        { speaker with deafened := deafened, lanes := retuneAll speaker.lanes rate }
      else speaker
    { speaker with
      calls := if deafened then speaker.calls.insert id .retuneScreen else speaker.calls.erase id }
  | .retuneScreen => { speaker with screen := speaker.rate, calls := speaker.calls.erase id }

def Speaker.step (speaker : Speaker) : Event → Option Speaker
  | .play id peer =>
    if (speaker.calls[id]?).isSome then none
    else some { speaker with calls := speaker.calls.insert id (.play peer speaker.rate) }
  | .setDeafened id deafened =>
    if (speaker.calls[id]?).isSome then none
    else some { speaker with calls := speaker.calls.insert id (.setDeafened deafened speaker.rate) }
  | .goesOn id => (speaker.calls[id]?).map fun call => speaker.goesOn id call
  | .setVolume peer => some { speaker with lanes := orInsert speaker.lanes peer speaker.rate }
  | .forget peer => some { speaker with lanes := speaker.lanes.erase peer }
  | .opens rate =>
    if speaker.opening.isSome then none
    else some { speaker with
      lanes := retuneAll speaker.lanes rate, opening := some (rate, .screen) }
  | .openGoesOn =>
    speaker.opening.map fun (rate, stage) =>
      match stage with
      | .screen => { speaker with screen := rate, opening := some (rate, .cues) }
      | .cues => { speaker with opening := some (rate, .store) }
      | .store => { speaker with rate := rate, opening := none }

def machine : Machine Speaker Event := ⟨.new, Speaker.step⟩

/-- The rate of the newest device: the one being opened, or the one last stored. -/
def Speaker.newest (speaker : Speaker) : ℕ :=
  match speaker.opening with
  | some (rate, _) => rate
  | none => speaker.rate

/-- No open is in flight, and no call that loaded the rate is unfinished. -/
def Speaker.Settled (speaker : Speaker) : Prop :=
  speaker.opening = none ∧ ∀ (id : ℕ) (call : Call), speaker.calls[id]? = some call →
    call = .retuneScreen

/-- Every lane converts to that rate. -/
def Speaker.At (speaker : Speaker) (rate : ℕ) : Prop :=
  ∀ (peer : Peer) (lane : Lane), speaker.lanes[peer]? = some lane →
    lane.resampler = resamplerFor rate

/-- No lane is made, and none is retuned, at another rate than the newest device's: the rate a call
goes by was not loaded before an open had retuned the lanes, nor between that and its store, unless
the two are the same. -/
def Allowed (speaker : Speaker) : Event → Prop
  | .goesOn id =>
    match speaker.calls[id]? with
    | some (.play peer rate) =>
      speaker.deafened = true ∨ (speaker.lanes[peer]?).isSome = true ∨ rate = speaker.newest
    | some (.setDeafened deafened rate) =>
      speaker.deafened = deafened ∨ speaker.lanes = ∅ ∨ rate = speaker.newest
    | _ => True
  | .setVolume peer => (speaker.lanes[peer]?).isSome = true ∨ speaker.rate = speaker.newest
  | _ => True

section Rates
variable {speaker next : Speaker} {rate rate' : ℕ}

theorem resamplerFor_inj (h : resamplerFor rate = resamplerFor rate') : rate = rate' := by
  unfold resamplerFor at h
  split at h
  · split at h
    · injection h with h
      injection h
    · cases h
  · next hrate =>
    split at h
    · cases h
    · next hrate' =>
      calc rate = sampleRate := not_not.mp hrate
        _ = rate' := (not_not.mp hrate').symm

/-- A lane is made at that rate only where it is missing. -/
theorem orInsert_at (h : speaker.At rate) (peer : Peer) :
    ({ speaker with lanes := orInsert speaker.lanes peer rate' } : Speaker).At rate ↔
      (speaker.lanes[peer]?).isSome = true ∨ rate' = rate := by
  unfold orInsert
  by_cases hthere : (speaker.lanes[peer]?).isSome = true
  · rw [if_pos hthere]
    exact iff_of_true h (Or.inl hthere)
  · rw [if_neg hthere]
    constructor
    · intro hat
      right
      apply resamplerFor_inj
      apply hat peer (Lane.new rate')
      rw [insert_at, if_pos rfl]
    · intro hor other lane hlane
      rw [insert_at] at hlane
      split at hlane
      · rw [← Option.some.inj hlane, ← hor.resolve_left hthere]
        rfl
      · exact h other lane hlane

/-- Every lane is at the rate it is retuned to, and there may be none. -/
theorem retuneAll_at :
    ({ speaker with lanes := retuneAll speaker.lanes rate' } : Speaker).At rate ↔
    speaker.lanes = ∅ ∨ rate' = rate := by
  have hget : ∀ peer : Peer, (retuneAll speaker.lanes rate')[peer]? =
      (speaker.lanes[peer]?).map fun lane : Lane => lane.retune rate' := by
    intro peer
    rw [retuneAll, Std.ExtTreeMap.getElem?_map]
  constructor
  · intro hat
    by_cases hempty : speaker.lanes = ∅
    · exact Or.inl hempty
    · right
      obtain ⟨peer, lane, hlane⟩ :
          ∃ (peer : Peer) (lane : Lane), speaker.lanes[peer]? = some lane := by
        by_contra hnone
        apply hempty
        apply Std.ExtTreeMap.ext_getElem?
        intro peer
        rw [Std.ExtTreeMap.getElem?_empty]
        apply Option.eq_none_iff_forall_ne_some.mpr
        intro lane hlane
        exact hnone ⟨peer, lane, hlane⟩
      apply resamplerFor_inj
      apply hat peer (lane.retune rate')
      rw [hget, hlane, Option.map_some]
  · intro hor peer lane hlane
    rw [hget] at hlane
    obtain ⟨old, hold, rfl⟩ := Option.map_eq_some_iff.mp hlane
    rcases hor with hempty | hrate
    · rw [hempty, Std.ExtTreeMap.getElem?_empty] at hold
      cases hold
    · rw [← hrate]
      rfl

/-- Step lemma: a step leaves the lanes at the newest device's rate just when it is allowed. -/
theorem step_at (h : speaker.At speaker.newest) (event : Event)
    (hs : speaker.step event = some next) :
    next.At next.newest ↔ Allowed speaker event := by
  cases event with
  | play id peer =>
    simp only [Speaker.step] at hs
    split at hs
    · cases hs
    · rw [← Option.some.inj hs]
      exact iff_of_true h trivial
  | setDeafened id deafened =>
    simp only [Speaker.step] at hs
    split at hs
    · cases hs
    · rw [← Option.some.inj hs]
      exact iff_of_true h trivial
  | goesOn id =>
    obtain ⟨call, hcall, rfl⟩ := Option.map_eq_some_iff.mp hs
    rw [Allowed, hcall]
    cases call with
    | play peer rate =>
      simp only [Speaker.goesOn]
      by_cases hdeaf : speaker.deafened = true
      · rw [if_pos hdeaf]
        exact iff_of_true h (Or.inl hdeaf)
      · rw [if_neg hdeaf, or_iff_right hdeaf]
        exact orInsert_at h peer
    | setDeafened deafened rate =>
      simp only [Speaker.goesOn]
      by_cases hsame : speaker.deafened = deafened
      · rw [if_neg (not_not.mpr hsame)]
        exact iff_of_true h (Or.inl hsame)
      · rw [if_pos hsame, or_iff_right hsame]
        exact retuneAll_at
    | retuneScreen => exact iff_of_true h trivial
  | setVolume peer =>
    rw [← Option.some.inj hs]
    exact orInsert_at h peer
  | forget peer =>
    rw [← Option.some.inj hs]
    refine iff_of_true (fun other lane hlane => ?_) trivial
    simp only at hlane
    rw [erase_at] at hlane
    split at hlane
    · cases hlane
    · exact h other lane hlane
  | opens rate =>
    simp only [Speaker.step] at hs
    split at hs
    · cases hs
    · rw [← Option.some.inj hs]
      exact iff_of_true (retuneAll_at.mpr (Or.inr rfl)) trivial
  | openGoesOn =>
    obtain ⟨⟨rate, stage⟩, hopening, rfl⟩ := Option.map_eq_some_iff.mp hs
    have hnewest : speaker.newest = rate := by rw [Speaker.newest, hopening]
    rw [hnewest] at h
    cases stage <;> exact iff_of_true h trivial

theorem new_at : Speaker.new.At Speaker.new.newest := by
  intro peer lane hlane
  simp only [Speaker.new, Std.ExtTreeMap.getElem?_empty] at hlane
  cases hlane

end Rates

/-- In every run where no lane is made or retuned at another rate, once nothing is under way every
lane converts to the rate last stored. -/
theorem voices_at_rate (events : List Event) (speaker : Speaker)
    (hmeets : machine.Meets Allowed events)
    (hrun : machine.run events = some speaker) (hsettled : speaker.Settled) :
    speaker.At speaker.rate := by
  have hat : speaker.At speaker.newest :=
    machine.invariant_of_meets new_at
      (fun _ event _ h hallowed hs => (step_at h event hs).mpr hallowed) hmeets hrun
  have hnewest : speaker.newest = speaker.rate := by rw [Speaker.newest, hsettled.1]
  rw [← hnewest]
  exact hat

instance (speaker : Speaker) (event : Event) : Decidable (Allowed speaker event) := by
  unfold Allowed
  split
  · split <;> infer_instance
  · infer_instance
  · infer_instance

/-- A device at another rate is opened with a voice's lane there, and another comes after. -/
def reopened : List Event :=
  [.play 0 7, .goesOn 0, .opens 44100, .openGoesOn, .openGoesOn, .play 1 7, .openGoesOn,
    .setDeafened 2 true, .goesOn 1, .goesOn 2, .goesOn 2, .setVolume 8]

theorem voices_at_rate_reopened :
    ∃ speaker, machine.run reopened = some speaker ∧ speaker.rate = 44100 ∧
    speaker.lanes[7]? = some ⟨some ⟨48000, 44100⟩⟩ ∧ speaker.At speaker.rate := by
  obtain ⟨speaker, hr⟩ :=
    Option.isSome_iff_exists.mp (show (machine.run reopened).isSome = true by decide +kernel)
  have hend : (machine.run reopened).any (fun speaker => speaker.rate = 44100 ∧
      speaker.lanes[7]? = some ⟨some ⟨48000, 44100⟩⟩ ∧ speaker.opening = none ∧
      vals speaker.calls = []) = true := by
    decide +kernel
  rw [hr] at hend
  obtain ⟨hrate, hlane, hopening, hcalls⟩ := of_decide_eq_true hend
  refine ⟨speaker, hr, hrate, hlane,
    voices_at_rate reopened speaker (by decide +kernel) hr ⟨hopening, ?_⟩⟩
  intro id call hcall
  have hmem := (mem_vals speaker.calls call).mpr ⟨id, hcall⟩
  rw [hcalls] at hmem
  exact absurd hmem (by simp)

/-- A voice's first frame, or its volume, comes between the open's look at the lanes and its store;
a first frame loads the rate before the open and takes the lanes after; the lanes are retuned for a
rate loaded before. -/
def around : List (List Event) :=
  [[.opens 44100, .play 0 7, .goesOn 0, .openGoesOn, .openGoesOn, .openGoesOn],
    [.opens 44100, .setVolume 7, .openGoesOn, .openGoesOn, .openGoesOn],
    [.play 0 7, .opens 44100, .openGoesOn, .openGoesOn, .openGoesOn, .goesOn 0],
    [.setVolume 7, .setDeafened 0 true, .opens 44100, .openGoesOn, .openGoesOn, .openGoesOn,
      .goesOn 0, .goesOn 0]]

theorem voices_off_rate :
    ¬ ∃ events ∈ around, ∀ speaker, machine.run events = some speaker → speaker.Settled →
    speaker.At speaker.rate := by
  have hall : ∀ events ∈ around, (machine.run events).any (fun speaker => speaker.opening = none ∧
      vals speaker.calls = [] ∧ speaker.rate = 44100 ∧ speaker.lanes[7]? = some ⟨none⟩) =
        true := by decide +kernel
  intro ⟨events, hmem, hclaim⟩
  obtain ⟨speaker, hr, hend⟩ := Option.any_eq_true _ _ |>.mp (hall events hmem)
  obtain ⟨hopening, hcalls, hrate, hlane⟩ := of_decide_eq_true hend
  have hat := hclaim speaker hr ⟨hopening, ?_⟩ 7 ⟨none⟩ hlane
  · rw [hrate] at hat
    exact absurd hat (by decide)
  · intro id call hcall
    have hin := (mem_vals speaker.calls call).mpr ⟨id, hcall⟩
    rw [hcalls] at hin
    exact absurd hin (by simp)

end Linger.VoiceRates
