import Linger.StepMachine
import Mathlib.Data.List.Basic
import Mathlib.Tactic.Linarith

/-! A shared screen's sound: what was captured cut into packets, each stamped with when its first
sample was captured, and a watcher's packets turned back into sound. Stamps are `u64`s, and a sum
that is not one is none. -/
namespace Linger.ScreenSound
open StepMachine

abbrev Sample := Int16

/-- Interleaved samples in one 20 ms packet. -/
def packetSamples : ℕ := 1920
def packetMicros : ℕ := 20000
def gapMicros : ℕ := 40000
def lateMicros : ℕ := 10000
def restartMicros : ℕ := 1000000
def concealMicros : ℕ := 60000
def frameSamples : ℕ := 960

/-- libopus, both ways. -/
structure Opus (Encoder Decoder : Type) where
  encode : Encoder → List Sample → Option (List UInt8) × Encoder
  decode : Decoder → List UInt8 → Option (List Sample) × Decoder

/-- They always succeed, and what they decode is one packet's sound. -/
structure Opus.Succeeds {Encoder Decoder : Type} (opus : Opus Encoder Decoder) : Prop where
  encodes : ∀ encoder frame, (opus.encode encoder frame).1.isSome = true
  decodes : ∀ decoder packet, ∃ samples, (opus.decode decoder packet).1 = some samples ∧
    samples.length = packetSamples

def microsOf (frames : ℕ) : ℕ := frames * 1000000 / 48000

/-- What a `u64` stays below. -/
def bound : ℕ := 2 ^ 64

def checked (sum : ℕ) : Option ℕ := if sum < bound then some sum else none

variable {Encoder Decoder : Type}

section Packetizer

structure Packetizer (Encoder : Type) where
  encoder : Encoder
  pending : List Sample
  /-- When the first of `pending` was captured. -/
  since : ℕ

/-- A packet's worth of samples, and the packet: none of perfect silence. -/
structure Cut where
  micros : ℕ
  frame : List Sample
  packet : Option (List UInt8)
deriving DecidableEq

variable (opus : Opus Encoder Decoder)

def Packetizer.emit (packetizer : Packetizer Encoder) : Option (Cut × Packetizer Encoder) := do
  let frame := packetizer.pending.take packetSamples
  let micros := packetizer.since
  let since ← checked (packetizer.since + packetMicros)
  let packetizer :=
    { packetizer with pending := packetizer.pending.drop packetSamples, since := since }
  if frame.all (· = 0) then return (⟨micros, frame, none⟩, packetizer)
  let (packet, encoder) := opus.encode packetizer.encoder frame
  return (⟨micros, frame, packet⟩, { packetizer with encoder := encoder })

/-- While a whole packet waits, and no more times than that: `turns` is how many wait. -/
def Packetizer.emitWhile (packetizer : Packetizer Encoder) :
    ℕ → Option (List Cut × Packetizer Encoder)
  | 0 => some ([], packetizer)
  | turns + 1 => do
    let (cut, packetizer) ← packetizer.emit opus
    let (cuts, packetizer) ← packetizer.emitWhile turns
    return (cut :: cuts, packetizer)

def absDiff (a b : ℕ) : ℕ := max (a - b) (b - a)

/-- How long what waits is. -/
def Packetizer.waiting (packetizer : Packetizer Encoder) : ℕ :=
  microsOf (packetizer.pending.length / 2)

/-- Sound was lost between what waits and what was captured then. -/
def Packetizer.gap (packetizer : Packetizer Encoder) (micros : ℕ) : Bool :=
  packetizer.pending ≠ [] ∧ absDiff micros (packetizer.since + packetizer.waiting) > gapMicros

/-- The silence that ends what waits, at a gap. -/
def Packetizer.finish (packetizer : Packetizer Encoder) (micros : ℕ) : List Sample :=
  if packetizer.gap micros then List.replicate (packetSamples - packetizer.pending.length) 0 else []

/-- `pending` brought up to what was captured at `micros`: at a gap it ends in silence, and the new
sound starts a packet of its own; else the stamps follow the clock. -/
def Packetizer.follow (packetizer : Packetizer Encoder) (micros : ℕ) :
    Option (List Cut × Packetizer Encoder) :=
  if packetizer.pending = [] then some ([], { packetizer with since := micros })
  else do
    let _expected ← checked (packetizer.since + packetizer.waiting)
    if packetizer.gap micros then
      let (cut, packetizer) ←
        ({ packetizer with pending := packetizer.pending ++ packetizer.finish micros } :
          Packetizer Encoder).emit opus
      return ([cut], { packetizer with pending := [], since := micros })
    else return ([], { packetizer with since := micros - packetizer.waiting })

/-- Without half a frame at the end. -/
def wholeFrames (samples : List Sample) : List Sample :=
  samples.take (samples.length - samples.length % 2)

def Packetizer.push (packetizer : Packetizer Encoder) (micros : ℕ) (samples : List Sample) :
    Option (List Cut × Packetizer Encoder) := do
  let samples := wholeFrames samples
  let (first, packetizer) ← packetizer.follow opus micros
  let packetizer := { packetizer with pending := packetizer.pending ++ samples }
  let (cuts, packetizer) ← packetizer.emitWhile opus (packetizer.pending.length / packetSamples)
  return (first ++ cuts, packetizer)

end Packetizer

section Listener

structure Listener (Decoder : Type) where
  decoder : Decoder
  /-- Where the last packet ended, by the sharer's clock. -/
  next : Option ℕ

/-- What is played: a guess at a packet that never came, or a packet. -/
inductive Sound
  | guessed (samples : List Sample)
  | decoded (samples : List Sample)
deriving DecidableEq

variable (opus : Opus Encoder Decoder)

/-- Guesses at that many missing packets. -/
def guess (decoder : Decoder) : ℕ → List Sound × Decoder
  | 0 => ([], decoder)
  | missing + 1 =>
    let (samples, decoder) := opus.decode decoder []
    let (sounds, decoder) := guess decoder missing
    (samples.toList.map .guessed ++ sounds, decoder)

/-- How many packets are guessed at between the last one's end and the next. -/
def guesses (micros : ℕ) : Option ℕ → ℕ
  | none => 0
  | some next =>
    let gap := micros - next
    if packetMicros / 2 ≤ gap ∧ gap ≤ concealMicros then (gap + packetMicros / 2) / packetMicros
      else 0

/-- Where a packet comes after: `none` of a late one, and nothing before the first of a share. -/
def place (micros : ℕ) : Option ℕ → Option (Option (Option ℕ))
  | none => some (some none)
  | some next =>
    (checked (micros + restartMicros)).bind fun restart =>
      if restart < next then some (some none)
      else (checked (micros + lateMicros)).bind fun late => if late < next then some none
        else some (some (some next))

/-- A packet played after `next`, those missing between guessed at. -/
def Listener.play (listener : Listener Decoder) (micros : ℕ) (packet : List UInt8)
    (next : Option ℕ) :
    Option (List Sound × Listener Decoder) :=
  let missed := guess opus listener.decoder (guesses micros next)
  let decoded := opus.decode missed.2 packet
  let frames := (decoded.1.map List.length).getD 0 / 2
  (checked (micros + microsOf (max frames frameSamples))).map fun stop =>
    (missed.1 ++ decoded.1.toList.map .decoded, ⟨decoded.2, some stop⟩)

/-- One packet captured at `micros`: the sound to play for it, and for those before it that never
came. -/
def Listener.hear (listener : Listener Decoder) (micros : ℕ) (packet : List UInt8) :
    Option (List Sound × Listener Decoder) :=
  (place micros listener.next).bind fun
    | none => some ([], listener)
    | some next => listener.play opus micros packet next

/-- A packet heard: where the last one before it had ended, and what was played. -/
structure Entry where
  next : Option ℕ
  micros : ℕ
  packet : List UInt8
  sounds : List Sound
deriving DecidableEq

def Listener.hears (listener : Listener Decoder) :
    List (ℕ × List UInt8) → Option (List Entry × Listener Decoder)
  | [] => some ([], listener)
  | (micros, packet) :: packets => do
    let (sounds, after) ← listener.hear opus micros packet
    let (entries, last) ← after.hears packets
    return (⟨listener.next, micros, packet, sounds⟩ :: entries, last)

end Listener

section Share

/-- A piece of what was captured, left and right samples in turn, and when the first was. -/
structure Piece where
  micros : ℕ
  samples : List Sample
deriving DecidableEq

/-- What a push took and made: the silence it finished what waited with, the frames, and the
cuts. -/
structure Pushed where
  finish : List Sample
  samples : List Sample
  cuts : List Cut
deriving DecidableEq

/-- The packets sent of some cuts. -/
def sent (cuts : List Cut) : List (ℕ × List UInt8) :=
  cuts.filterMap fun cut => cut.packet.map fun packet => (cut.micros, packet)

/-- A share: the sharer's packetizer, a watcher's listener that hears every packet in the order
made, what was pushed and what was heard. -/
structure Share (Encoder Decoder : Type) where
  packetizer : Packetizer Encoder
  listener : Listener Decoder
  pushed : List Pushed
  heard : List Entry

variable (opus : Opus Encoder Decoder)

def Share.step (share : Share Encoder Decoder) (piece : Piece) : Option (Share Encoder Decoder) :=
    do
  let (cuts, packetizer) ← share.packetizer.push opus piece.micros piece.samples
  let (entries, listener) ← share.listener.hears opus (sent cuts)
  return ⟨packetizer, listener,
    share.pushed ++ [⟨share.packetizer.finish piece.micros, wholeFrames piece.samples, cuts⟩],
    share.heard ++ entries⟩

def machine (encoder : Encoder) (decoder : Decoder) : Machine (Share Encoder Decoder) Piece :=
  ⟨⟨⟨encoder, [], 0⟩, ⟨decoder, none⟩, [], []⟩, Share.step opus⟩

def Silent (samples : List Sample) : Prop := ∀ sample ∈ samples, sample = 0

/-- The stamps of what comes of a push leave a `u64` room for more than a second. -/
def Fits (share : Share Encoder Decoder) (piece : Piece) : Prop :=
  max share.packetizer.since piece.micros + packetMicros *
    ((share.packetizer.pending.length + (wholeFrames piece.samples).length) / packetSamples + 2) +
      restartMicros < bound

/-- Where the clock puts the first sample that waits. -/
def Packetizer.stamp (packetizer : Packetizer Encoder) (micros : ℕ) : ℕ :=
  if packetizer.pending = [] then micros else micros - packetizer.waiting

/-- The first packet's worth that is not silence, of samples captured from `micros` on. -/
def firstSound (micros : ℕ) : ℕ → List Sample → Option ℕ
  | 0, _ => none
  | packets + 1, samples =>
    if (samples.take packetSamples).all (· = 0) then
      firstSound (micros + packetMicros) packets (samples.drop packetSamples)
    else some micros

/-- More than the lateness allowed before where the last packet ended, and no restart. -/
def Behind (micros : ℕ) (next : Option ℕ) : Prop :=
  ∃ stop ∈ next, micros + lateMicros < stop ∧ stop ≤ micros + restartMicros

/-- The capture's clock puts no sound a push completes behind the end of the last sound: neither
what waits, nor the new sound after what a gap finished. -/
def Steady (share : Share Encoder Decoder) (piece : Piece) : Prop :=
  let packetizer := share.packetizer
  let samples := wholeFrames piece.samples
  if packetizer.gap piece.micros then
    if packetizer.pending.all (· = 0) then
      ∀ micros ∈ firstSound piece.micros (samples.length / packetSamples) samples,
        ¬ Behind micros share.listener.next
    else
      ¬ Behind packetizer.since share.listener.next ∧
        ∀ micros ∈ firstSound piece.micros (samples.length / packetSamples) samples,
          ¬ Behind micros (some (packetizer.since + packetMicros))
  else
    let waiting := packetizer.pending ++ samples
    ∀ micros ∈ firstSound (packetizer.stamp piece.micros) (waiting.length / packetSamples) waiting,
      ¬ Behind micros share.listener.next

end Share

section Heard

/-- The same person shares again, their clock new. -/
def Entry.Restarts (entry : Entry) : Prop :=
  ∃ next ∈ entry.next, entry.micros + restartMicros < next

/-- What it held was played, or guessed at. -/
def Entry.Late (entry : Entry) : Prop :=
  ¬ entry.Restarts ∧ ∃ next ∈ entry.next, entry.micros + lateMicros < next

/-- The packets missing before one: as many as fit the time between, to the nearest, and a pause if
that is more than three packets' time. -/
def Entry.missing (entry : Entry) : ℕ :=
  match entry.next with
  | none => 0
  | some next =>
    if entry.micros + restartMicros < next then 0
    else if entry.micros - next ≤ 3 * packetMicros then
      (entry.micros - next + packetMicros / 2) / packetMicros
    else 0

def Sound.isGuess : Sound → Bool
  | .guessed _ => true
  | .decoded _ => false

end Heard
section Cutting
variable {opus : Opus Encoder Decoder} {packetizer next : Packetizer Encoder} {cuts : List Cut}
  {micros : ℕ}

/-- A cut holds a packet's samples, and is sent unless it is perfect silence. -/
def Cut.Sound (cut : Cut) : Prop :=
  cut.frame.length = packetSamples ∧ (cut.packet = none ↔ Silent cut.frame)

end Cutting

section Hearing
variable {opus : Opus Encoder Decoder} {listener after last : Listener Decoder} {micros : ℕ}
  {packet : List UInt8}
  {packets : List (ℕ × List UInt8)} {entries : List Entry}

/-- What is added to a stamp is still a `u64`. -/
def Room (micros : ℕ) : Option ℕ → Prop
  | none => micros + packetMicros < bound
  | some _ => micros + restartMicros < bound

/-- How one packet is played. -/
structure Entry.Plays (entry : Entry) : Prop where
  dropped : entry.sounds = [] ↔ entry.Late
  guessed : entry.sounds ≠ [] → ∃ guessed samples, entry.sounds = guessed ++ [.decoded samples] ∧
    guessed.length = entry.missing ∧ ∀ sound ∈ guessed, sound.isGuess = true

/-- Where the packet after one is expected. -/
def Entry.expected (entry : Entry) : Option ℕ :=
  if entry.sounds = [] then entry.next else some (entry.micros + packetMicros)

end Hearing

section Listening
variable {opus : Opus Encoder Decoder} {listener last : Listener Decoder}
  {packets : List (ℕ × List UInt8)}
  {entries : List Entry} {next : Option ℕ}

/-- Packets played one after another, the first of them after `next`. -/
def Follows : Option ℕ → List Entry → Prop
  | _, [] => True
  | next, entry :: entries => entry.next = next ∧ entry.Plays ∧ Follows entry.expected entries

theorem Follows.append {front rest : List Entry} (h : Follows next (front ++ rest)) :
    ∃ next, Follows next rest := by
  induction front generalizing next with
  | nil => exact ⟨next, h⟩
  | cons entry front ih => exact ih h.2.2

theorem Follows.front {front rest : List Entry} (h : Follows next (front ++ rest)) :
    Follows next front := by
  induction front generalizing next with
  | nil => trivial
  | cons entry front ih => exact ⟨h.1, h.2.1, ih h.2.2⟩

theorem Follows.plays {entry : Entry} (h : Follows next entries) (hmem : entry ∈ entries) :
    entry.Plays := by
  obtain ⟨front, rest, rfl⟩ := List.append_of_mem hmem
  obtain ⟨next, hplays⟩ := h.append
  exact hplays.2.1

end Listening

section Sharing
variable {opus : Opus Encoder Decoder} {cuts : List Cut} {next : Option ℕ}
  {share after : Share Encoder Decoder}
  {piece : Piece}

def stamps (cuts : List Cut) : List ℕ := (sent cuts).map Prod.fst

/-- Nothing heard was dropped. -/
def Share.Whole (share : Share Encoder Decoder) : Prop := ∀ entry ∈ share.heard, entry.sounds ≠ []

end Sharing

instance (share : Share Unit Unit) (piece : Piece) : Decidable (Fits share piece) :=
  inferInstanceAs (Decidable (_ < bound))

instance (share : Share Unit Unit) (piece : Piece) : Decidable (Steady share piece) := by
  unfold Steady Behind
  infer_instance

end Linger.ScreenSound
