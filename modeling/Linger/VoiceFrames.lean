import Mathlib.Data.List.Basic
import Mathlib.Data.List.Induction
import Mathlib.Data.List.Pairwise
import Mathlib.Tactic.Linarith

/-! One person's voice as the forwarding server's packets bring it: where each packet goes by its
timestamp, and what is played, filled in and dropped. -/
namespace Linger.VoiceFrames

/-- libopus, and the gate that says whether somebody is talking. -/
structure Outside (Decoder Gate Frame : Type) where
  newDecoder : Option Decoder
  decode : Decoder → List UInt8 → Option Frame × Decoder
  rebuild : Decoder → List UInt8 → Option Frame × Decoder
  conceal : Decoder → Option Frame × Decoder
  gate : Gate
  isOn : Gate → Bool
  /-- What the gate makes of a frame, or of silence, at that moment. -/
  update : Gate → Option Frame → ℕ → Option Bool × Gate

/-- Where an arriving packet goes in somebody's voice. -/
inductive Arrival
  | next
  | after (missing : ℕ)
  | pause
  | late
  deriving DecidableEq

def frameTicks : UInt32 := 960
def lateFrames : UInt32 := 10

/-- Place a packet by its RTP timestamp against the one expected next. -/
def arrival (expected : Option UInt32) (stamp : UInt32) : Arrival :=
  match expected with
  | none => .next
  | some expected =>
    let ahead := stamp - expected
    if ahead < 4294967295 / 2 then
      let missing := (ahead / frameTicks).toNat
      if missing = 0 then .next else if missing ≤ 4 then .after missing else .pause
    else if expected - stamp ≤ lateFrames * frameTicks then .late else .pause

/-- How a frame that is played was made. -/
inductive Made
  | decoded (payload : List UInt8)
  | rebuilt (payload : List UInt8)
  | concealed
  deriving DecidableEq

/-- What the sink and the watcher are told. -/
inductive Out (Person Frame : Type)
  | play (who : Person) (frame : Frame) (made : Made)
  | resume (who : Person)
  | speaking (who : Person) (talking : Bool)
  deriving DecidableEq

variable {Person Decoder Gate Frame : Type}

section Receive
variable (outside : Outside Decoder Gate Frame)

/-- The frames that go where `missing` packets never came, before `next`: a failure's is left
out. -/
def fillGap (decoder : Decoder) (next : List UInt8) : ℕ → List (Frame × Made) × Decoder
  | 0 => ([], decoder)
  | 1 =>
    let (frame, decoder) := outside.rebuild decoder next
    (frame.toList.map (·, .rebuilt next), decoder)
  | missing + 2 =>
    let (frame, decoder) := outside.conceal decoder
    let (frames, decoder) := fillGap decoder next (missing + 1)
    (frame.toList.map (·, .concealed) ++ frames, decoder)

/-- What `receive_forwarded` keeps from one packet to the next. The stamps are a parameter, so that
the same steps can be taken with the frames' own numbers. -/
structure State (Person Decoder Gate Stamp : Type) where
  current : Option (Person × Decoder × Gate)
  expected : Option Stamp

def State.start {Stamp : Type} : State Person Decoder Gate Stamp := ⟨none, none⟩

/-- What the loop wakes to. `who` is whose voice the latest offer says the packet is. -/
inductive Event (Person Stamp : Type)
  | quiet (now : ℕ)
  | packet (who : Option Person) (stamp : Stamp) (payload : List UInt8) (now : ℕ)
  | broken

variable [DecidableEq Person]

/-- The person a packet is from, and what is kept for them: somebody else's start afresh. -/
def turnTo {Stamp : Type} (st : State Person Decoder Gate Stamp) (who : Person) :
    List (Out Person Frame) × Option (Person × Decoder × Gate) × Option Stamp :=
  match st.current with
  | some (current, decoder, gate) =>
    if current = who then ([], some (current, decoder, gate), st.expected)
    else (if outside.isOn gate then [.speaking current false] else [],
      outside.newDecoder.map fun decoder => (who, decoder, outside.gate), none)
  | none => ([], outside.newDecoder.map fun decoder => (who, decoder, outside.gate), none)

/-- A frame decoded is judged by the gate and played. -/
def playDecoded (who : Person) (decoder : Decoder) (gate : Gate) (payload : List UInt8) (now : ℕ) :
    List (Out Person Frame) × Decoder × Gate :=
  if payload = [] then ([], decoder, gate)
  else
    let (decoded, decoder) := outside.decode decoder payload
    match decoded with
    | none => ([], decoder, gate)
    | some frame =>
      let (talking, gate) := outside.update gate (some frame) now
      (talking.toList.map (.speaking who) ++ [.play who frame (.decoded payload)], decoder, gate)

/-- One turn of the loop; `none` leaves it. -/
def receive {Stamp : Type} (place : Option Stamp → Stamp → Arrival) (follows : Stamp → Stamp)
    (st : State Person Decoder Gate Stamp) :
    Event Person Stamp → List (Out Person Frame) × Option (State Person Decoder Gate Stamp)
  | .quiet now =>
    match st.current with
    | none => ([], some st)
    | some (who, decoder, gate) =>
      let (talking, gate) := outside.update gate none now
      (talking.toList.map (.speaking who), some { st with current := some (who, decoder, gate) })
  | .broken =>
    match st.current with
    | some (who, _, gate) => (if outside.isOn gate then [.speaking who false] else [], none)
    | none => ([], none)
  | .packet none _ _ _ => ([], some st)
  | .packet (some peer) stamp payload now =>
    let (told, current, expected) := turnTo outside st peer
    match current with
    | none => (told, none)
    | some (who, decoder, gate) =>
      match place expected stamp with
      | .late => (told, some ⟨some (who, decoder, gate), expected⟩)
      | arrived =>
        let (filled, decoder) : List (Out Person Frame) × Decoder :=
          match arrived with
          | .after missing =>
            let (frames, decoder) := fillGap outside decoder payload missing
            (frames.map fun frame => .play who frame.1 frame.2, decoder)
          | .pause => ([.resume who], decoder)
          | _ => ([], decoder)
        let (played, decoder, gate) := playDecoded outside who decoder gate payload now
        (told ++ filled ++ played, some ⟨some (who, decoder, gate), some (follows stamp)⟩)

/-- What each thing the loop wakes to comes to, until it is left. -/
def receiveAll {Stamp : Type} (place : Option Stamp → Stamp → Arrival) (follows : Stamp → Stamp) :
    State Person Decoder Gate Stamp → List (Event Person Stamp) → List (List (Out Person Frame))
  | _, [] => []
  | st, event :: events =>
    match receive outside place follows st event with
    | (outs, none) => [outs]
    | (outs, some st) => outs :: receiveAll place follows st events

/-- The loop from its start. -/
def receiveForwarded (events : List (Event Person UInt32)) : List (List (Out Person Frame)) :=
  receiveAll outside arrival (· + frameTicks) .start events

end Receive

section Stream

/-- What is heard of one person: a packet of the frame with that number, or nothing for a while. -/
inductive Heard
  | quiet (now : ℕ)
  | frame (k : ℕ) (payload : List UInt8) (now : ℕ)
  deriving DecidableEq

/-- The stamp of a frame, where the first one's is `base`. -/
def stampOf (base : UInt32) (k : ℕ) : UInt32 := base + UInt32.ofNat (960 * k)

def Heard.event (who : Person) {Stamp : Type} (stamp : ℕ → Stamp) : Heard → Event Person Stamp
  | .quiet now => .quiet now
  | .frame k payload now => .packet (some who) (stamp k) payload now

/-- What one person's stream comes to. -/
def plays [DecidableEq Person] (outside : Outside Decoder Gate Frame) (who : Person) (base : UInt32)
    (stream : List Heard) : List (List (Out Person Frame)) :=
  receiveForwarded outside (stream.map (Heard.event who (stampOf base)))

/-- The place expected next, once this was heard. -/
def Heard.expects (place : Option ℕ) : Heard → Option ℕ
  | .quiet _ => place
  | .frame k _ _ => some (max (place.getD 0) (k + 1))

/-- Not too far behind the place expected next, nor too far ahead of it. -/
def Heard.Near (place : Option ℕ) : Heard → Prop
  | .quiet _ => True
  | .frame k _ _ => ∀ e ∈ place, e ≤ k + 10 ∧ 960 * (k - e) < 2 ^ 31 - 960

/-- Every packet is near the place expected when it came. -/
def Stays : Option ℕ → List Heard → Prop
  | _, [] => True
  | place, heard :: stream => heard.Near place ∧ Stays (heard.expects place) stream

/-- Its packets hold something. -/
def Heard.Full : Heard → Prop
  | .quiet _ => True
  | .frame _ payload _ => payload ≠ []

/-- Decoding, concealing and rebuilding succeed. -/
structure Outside.Succeeds (outside : Outside Decoder Gate Frame) : Prop where
  starts : outside.newDecoder.isSome = true
  decodes : ∀ decoder payload, payload ≠ [] → (outside.decode decoder payload).1.isSome = true
  rebuilds : ∀ decoder payload, payload ≠ [] → (outside.rebuild decoder payload).1.isSome = true
  conceals : ∀ decoder, (outside.conceal decoder).1.isSome = true

end Stream

section Places

/-- What the sink was given. -/
inductive Given
  | frame (made : Made)
  | resume
  deriving DecidableEq

def Out.given : Out Person Frame → Option Given
  | .play _ _ made => some (.frame made)
  | .resume _ => some .resume
  | .speaking _ _ => none

/-- A packet, and what the sink was given as it came. -/
structure Entry where
  k : ℕ
  payload : List UInt8
  given : List Given
  deriving DecidableEq

/-- The packets of a stream in the order they came, each with what the sink was given. -/
def entries (stream : List Heard) (outs : List (List (Out Person Frame))) : List Entry :=
  (stream.zip outs).filterMap fun (heard, outs) =>
    match heard with
    | .quiet _ => none
    | .frame k payload _ => some ⟨k, payload, outs.filterMap Out.given⟩

/-- Its frame was decoded and played. -/
def Entry.Played (entry : Entry) : Prop := .frame (.decoded entry.payload) ∈ entry.given

instance (entry : Entry) : Decidable entry.Played := inferInstanceAs (Decidable (_ ∈ _))

/-- The frames that stand in for others, before its own. -/
def Entry.fills (entry : Entry) : ℕ :=
  entry.given.countP fun given => given ≠ .resume ∧ given ≠ .frame (.decoded entry.payload)

/-- What is given between two frames with `missing` others between them, before the second. -/
def gap (missing : ℕ) (payload : List UInt8) : List Given :=
  if missing = 0 then []
  else if missing ≤ 4 then
    List.replicate (missing - 1) (.frame .concealed) ++ [.frame (.rebuilt payload)]
  else [.resume]

/-- The place of frame `k` was played, filled by a later packet, or passed over for a later
frame. -/
def Taken (before : List Entry) (k : ℕ) : Prop :=
  (∃ entry ∈ before, entry.Played ∧ entry.k = k) ∨
  (∃ entry ∈ before, entry.Played ∧ entry.k - entry.fills ≤ k ∧ k < entry.k) ∨
  ∃ entry ∈ before, entry.Played ∧ k < entry.k

/-- Every frame is played once, in its place. -/
structure InPlace (log : List Entry) : Prop where
  /-- Frames are played in strictly ascending order. -/
  ascending : ((log.filter fun entry => entry.Played).map Entry.k).Pairwise (· < ·)
  /-- The first is played with nothing before it. -/
  first : ∀ entry ∈ log.head?, entry.given = [.frame (.decoded entry.payload)]
  /-- Between two that are played one after the other, the sink is given what the frames between
  make. -/
  between : ∀ before last middle entry after, log = before ++ last :: middle ++ entry :: after →
    last.Played → entry.Played → (∀ dropped ∈ middle, ¬ dropped.Played) →
    last.k < entry.k ∧ (middle.flatMap Entry.given) ++ entry.given =
      gap (entry.k - last.k - 1) entry.payload ++ [.frame (.decoded entry.payload)]
  /-- A packet is dropped just when its place is taken. -/
  dropped : ∀ before entry after, log = before ++ entry :: after →
    (entry.given = [] ↔ Taken before entry.k)

end Places

section Arriving

/-- Where a frame goes, by the frames' own numbers. -/
def arrivalAt (place : Option ℕ) (k : ℕ) : Arrival :=
  match place with
  | none => .next
  | some e =>
    if k < e then .late
    else if k - e = 0 then .next else if k - e ≤ 4 then .after (k - e) else .pause

theorem stampOf_add (base : UInt32) (e d : ℕ) :
    stampOf base (e + d) = stampOf base e + UInt32.ofNat (960 * d) := by
  rw [stampOf, stampOf, Nat.mul_add, UInt32.ofNat_add, UInt32.add_assoc]

theorem stampOf_next (base : UInt32) (k : ℕ) : stampOf base k + frameTicks = stampOf base (k + 1) :=
  (stampOf_add base k 1).symm

/-- A packet near its place goes where its frame's number says, wherever the stamps began. -/
theorem arrival_stampOf (base : UInt32) {place : Option ℕ} {k : ℕ} {payload : List UInt8} {now : ℕ}
    (hnear : (Heard.frame k payload now).Near place) :
    arrival (place.map (stampOf base)) (stampOf base k) = arrivalAt place k := by
  cases place with
  | none => rfl
  | some e =>
    obtain ⟨hbehind, hahead⟩ := hnear e rfl
    rw [Option.map_some, arrival, arrivalAt]
    by_cases hlate : k < e
    · -- Behind: the difference wraps past the half, and the other way about it is small.
      obtain ⟨d, rfl⟩ := Nat.exists_eq_add_of_lt hlate
      have hback : stampOf base (k + d + 1) - stampOf base k = UInt32.ofNat (960 * (d + 1)) := by
        rw [show k + d + 1 = k + (d + 1) by omega, stampOf_add, UInt32.add_comm,
          UInt32.add_sub_cancel]
      have hwrap : stampOf base k - stampOf base (k + d + 1) = -UInt32.ofNat (960 * (d + 1)) := by
        rw [← hback, UInt32.neg_sub]
      have hticks : (UInt32.ofNat (960 * (d + 1))).toNat = 960 * (d + 1) :=
        UInt32.toNat_ofNat_of_lt' (by rw [UInt32.size]; omega)
      rw [if_pos hlate, if_neg, if_pos]
      · rw [hback, UInt32.le_iff_toNat_le, hticks]
        have hmost : (lateFrames * frameTicks).toNat = 9600 := by decide
        omega
      · rw [hwrap, UInt32.lt_iff_toNat_lt, UInt32.toNat_neg, hticks]
        have hhalf : (4294967295 / 2 : UInt32).toNat = 2147483647 := by decide
        have hsize : UInt32.size = 4294967296 := rfl
        have hfits : (UInt32.size - 960 * (d + 1)) % UInt32.size = UInt32.size - 960 * (d + 1) := by
          apply Nat.mod_eq_of_lt
          omega
        omega
    · obtain ⟨d, rfl⟩ := Nat.exists_eq_add_of_le (Nat.le_of_not_lt hlate)
      have hforth : stampOf base (e + d) - stampOf base e = UInt32.ofNat (960 * d) := by
        rw [stampOf_add, UInt32.add_comm, UInt32.add_sub_cancel]
      have hd : e + d - e = d := by omega
      rw [hd] at hahead ⊢
      have hticks : (UInt32.ofNat (960 * d)).toNat = 960 * d :=
        UInt32.toNat_ofNat_of_lt' (by rw [UInt32.size]; omega)
      have hmissing : (UInt32.ofNat (960 * d) / frameTicks).toNat = d := by
        rw [UInt32.toNat_div, hticks, show frameTicks.toNat = 960 from rfl]
        exact Nat.mul_div_cancel_left d (by decide)
      rw [if_neg hlate, hforth, if_pos, hmissing]
      rw [UInt32.lt_iff_toNat_lt, hticks]
      have hhalf : (4294967295 / 2 : UInt32).toNat = 2147483647 := by decide
      omega

variable {outside : Outside Decoder Gate Frame} {who : Person}

/-- The same state with other stamps. -/
def State.map {S T : Type} (f : S → T) (st : State Person Decoder Gate S) :
    State Person Decoder Gate T :=
  ⟨st.current, st.expected.map f⟩

variable [DecidableEq Person]

theorem turnTo_map {S T : Type} (f : S → T) (st : State Person Decoder Gate S) :
    turnTo outside (st.map f) who =
      ((turnTo outside st who).1, (turnTo outside st who).2.1,
        (turnTo outside st who).2.2.map f) := by
  unfold turnTo State.map
  cases st.current with
  | none => rfl
  | some kept => by_cases hsame : kept.1 = who <;> simp [hsame]

/-- A turn of the loop says the same in other stamps, where the packet goes to the same place in
them. -/
theorem receive_map {S T : Type} (place : Option S → S → Arrival) {place' : Option T → T → Arrival}
    (follows : S → S)
    {follows' : T → T} {f : S → T} {st : State Person Decoder Gate S} {k : S} {payload : List UInt8}
    {now : ℕ}
    (hplace : place' ((turnTo outside st who).2.2.map f) (f k) =
      place (turnTo outside st who).2.2 k)
    (hfollows : follows' (f k) = f (follows k)) :
    receive outside place' follows' (st.map f) (.packet (some who) (f k) payload now) =
      ((receive outside place follows st (.packet (some who) k payload now)).1,
        (receive outside place follows st (.packet (some who) k payload now)).2.map
          (State.map f)) := by
  simp only [receive, turnTo_map]
  rcases hturn : turnTo outside st who with ⟨told, current, expected⟩
  rw [hturn] at hplace
  cases current with
  | none => rfl
  | some kept =>
    obtain ⟨kept, decoder, gate⟩ := kept
    simp only at hplace ⊢
    rw [hplace]
    cases place expected k <;> simp [State.map, hfollows]

theorem receive_quiet_map {S T : Type} (place : Option S → S → Arrival)
    {place' : Option T → T → Arrival}
    (follows : S → S) {follows' : T → T} {f : S → T} {st : State Person Decoder Gate S} (now : ℕ) :
    receive outside place' follows' (st.map f) (.quiet now) =
      ((receive outside place follows st (.quiet now)).1,
        (receive outside place follows st (.quiet now)).2.map (State.map f)) := by
  obtain ⟨current, expected⟩ := st
  cases current <;> rfl

end Arriving

section Numbered
variable {outside : Outside Decoder Gate Frame} {who : Person}

/-- What the sink is given for a frame, by the place expected next. -/
def givenAt (place : Option ℕ) (k : ℕ) (payload : List UInt8) : List Given :=
  match place with
  | none => [.frame (.decoded payload)]
  | some e => if k < e then [] else gap (k - e) payload ++ [.frame (.decoded payload)]

theorem fillGap_given (hok : outside.Succeeds) {payload : List UInt8} (hpayload : payload ≠ [])
    (missing : ℕ)
    (hmissing : missing ≠ 0) (decoder : Decoder) :
    (fillGap outside decoder payload missing).1.map Prod.snd =
      List.replicate (missing - 1) .concealed ++ [.rebuilt payload] := by
  induction missing generalizing decoder with
  | zero => exact absurd rfl hmissing
  | succ missing ih =>
    cases missing with
    | zero =>
      obtain ⟨frame, hframe⟩ := Option.isSome_iff_exists.mp (hok.rebuilds decoder payload hpayload)
      simp [fillGap, hframe]
    | succ missing =>
      obtain ⟨frame, hframe⟩ := Option.isSome_iff_exists.mp (hok.conceals decoder)
      have hrest := ih (Nat.succ_ne_zero missing) (outside.conceal decoder).2
      simp [fillGap, hframe, hrest, List.replicate_succ]

/-- What is kept of one person's voice: nothing before their first packet, then the place expected
next. -/
def Ready (who : Person) (place : Option ℕ) (st : State Person Decoder Gate ℕ) : Prop :=
  st.expected = place ∧
    match place with
    | none => st.current = none
    | some _ => ∃ decoder gate, st.current = some (who, decoder, gate)

theorem playDecoded_given (hok : outside.Succeeds) {payload : List UInt8} (hpayload : payload ≠ [])
    (decoder : Decoder)
    (gate : Gate) (now : ℕ) :
    (playDecoded outside who decoder gate payload now).1.filterMap Out.given =
      [.frame (.decoded payload)] := by
  obtain ⟨frame, hframe⟩ := Option.isSome_iff_exists.mp (hok.decodes decoder payload hpayload)
  rw [playDecoded, if_neg hpayload]
  simp only [hframe]
  cases (outside.update gate (some frame) now).1 <;> rfl

variable [DecidableEq Person]

/-- One person's packet turns to them, with what was kept of them. -/
theorem turnTo_ready (hok : outside.Succeeds) {place : Option ℕ} {st : State Person Decoder Gate ℕ}
    (hready : Ready who place st) :
    ∃ decoder gate, turnTo outside st who = ([], some (who, decoder, gate), place) := by
  obtain ⟨hexpected, hcurrent⟩ := hready
  cases place with
  | none =>
    obtain ⟨decoder, hdecoder⟩ := Option.isSome_iff_exists.mp hok.starts
    simp only at hcurrent
    exact ⟨decoder, outside.gate, by rw [turnTo, hcurrent, hdecoder]; rfl⟩
  | some e =>
    obtain ⟨decoder, gate, hkept⟩ := hcurrent
    refine ⟨decoder, gate, ?_⟩
    rw [turnTo, hkept]
    simp only [if_pos]
    rw [hexpected]

/-- One packet, by the frames' own numbers: the sink is given what its place says, and the next
place is expected. -/
theorem receive_frame (hok : outside.Succeeds) {place : Option ℕ} {st : State Person Decoder Gate ℕ}
    (hready : Ready who place st) (k : ℕ) {payload : List UInt8} (hpayload : payload ≠ [])
    (now : ℕ) :
    ∃ outs st', receive outside arrivalAt (· + 1) st (.packet (some who) k payload now) =
      (outs, some st') ∧ outs.filterMap Out.given = givenAt place k payload ∧
      Ready who ((Heard.frame k payload now).expects place) st' := by
  obtain ⟨decoder, gate, hturn⟩ := turnTo_ready hok hready
  have hnext : ∀ decoder : Decoder, ∀ gate : Gate, ∀ e, e = k + 1 →
      Ready who (some e)
        (⟨some (who, decoder, gate), some (k + 1)⟩ : State Person Decoder Gate ℕ) := by
    intro decoder gate e he
    exact ⟨by rw [he], decoder, gate, rfl⟩
  simp only [receive, hturn]
  cases place with
  | none =>
    have hexpects : (Heard.frame k payload now).expects none = some (k + 1) := by
      simp [Heard.expects]
    refine ⟨_, _, rfl, ?_, hexpects ▸ hnext _ _ _ rfl⟩
    simp only [arrivalAt, List.nil_append]
    exact playDecoded_given hok hpayload decoder gate now
  | some e =>
    by_cases hlate : k < e
    · -- Its place is taken: it is dropped, and nothing kept changes.
      have hexpects : (Heard.frame k payload now).expects (some e) = some e := by
        rw [Heard.expects, Option.getD_some, max_eq_left hlate]
      simp only [arrivalAt, if_pos hlate]
      rw [hexpects]
      exact ⟨_, _, rfl, by simp [givenAt, hlate], rfl, decoder, gate, rfl⟩
    · have hexpects : (Heard.frame k payload now).expects (some e) = some (k + 1) := by
        rw [Heard.expects, Option.getD_some, max_eq_right (by omega)]
      simp only [arrivalAt, if_neg hlate, givenAt, gap]
      by_cases hnone : k - e = 0
      · simp only [if_pos hnone, List.nil_append]
        exact ⟨_, _, rfl, playDecoded_given hok hpayload decoder gate now,
          hexpects ▸ hnext _ _ _ rfl⟩
      · simp only [if_neg hnone]
        by_cases hfew : k - e ≤ 4
        · simp only [if_pos hfew, List.nil_append]
          refine ⟨_, _, rfl, ?_, hexpects ▸ hnext _ _ _ rfl⟩
          have hfilled := fillGap_given hok hpayload (k - e) hnone decoder
          have hgiven : ∀ frames : List (Frame × Made),
              (frames.map fun frame => (Out.play who frame.1 frame.2 : Out Person Frame)).filterMap
                Out.given =
                (frames.map Prod.snd).map Given.frame := by
            intro frames
            rw [List.filterMap_map, List.map_map, ← List.filterMap_eq_map]
            rfl
          rw [List.filterMap_append, hgiven, hfilled, playDecoded_given hok hpayload]
          simp
        · simp only [if_neg hfew, List.nil_append]
          refine ⟨_, _, rfl, ?_, hexpects ▸ hnext _ _ _ rfl⟩
          rw [List.filterMap_append, playDecoded_given hok hpayload]
          rfl

theorem receive_quiet (outside : Outside Decoder Gate Frame) {place : Option ℕ}
    {st : State Person Decoder Gate ℕ} (hready : Ready who place st) (now : ℕ) :
    ∃ outs st', receive outside arrivalAt (· + 1) st (.quiet now) = (outs, some st') ∧
      Ready who place st' := by
  obtain ⟨hexpected, hcurrent⟩ := hready
  rw [receive]
  cases place with
  | none =>
    simp only at hcurrent
    rw [hcurrent]
    exact ⟨_, _, rfl, hexpected, hcurrent⟩
  | some e =>
    obtain ⟨decoder, gate, hkept⟩ := hcurrent
    rw [hkept]
    exact ⟨_, _, rfl, hexpected, decoder, _, rfl⟩

end Numbered

section Played
variable {log : List Entry}

/-- The place expected next, after those packets. -/
def placeAfter (log : List Entry) : Option ℕ :=
  log.foldl (fun place entry => some (max (place.getD 0) (entry.k + 1))) none

theorem placeAfter_concat (log : List Entry) (entry : Entry) :
    placeAfter (log ++ [entry]) = some (max ((placeAfter log).getD 0) (entry.k + 1)) := by
  rw [placeAfter, List.foldl_append]
  rfl

/-- Each packet's frames are what the place expected next says. -/
def Placed (log : List Entry) : Prop :=
  ∀ before entry after, log = before ++ entry :: after →
    entry.given = givenAt (placeAfter before) entry.k entry.payload

theorem Placed.front {before after : List Entry} (h : Placed (before ++ after)) :
    Placed before := by
  intro first entry rest hsplit
  apply h first entry (rest ++ after)
  rw [hsplit, List.append_assoc, List.cons_append]

theorem Placed.last {before : List Entry} {entry : Entry} (h : Placed (before ++ [entry])) :
    entry.given = givenAt (placeAfter before) entry.k entry.payload := h before entry [] rfl

/-- A packet is played unless its place has gone by. -/
theorem played_iff {entry : Entry} {place : Option ℕ}
    (h : entry.given = givenAt place entry.k entry.payload) :
    entry.Played ↔ ∀ e ∈ place, e ≤ entry.k := by
  rw [Entry.Played, h]
  cases place with
  | none => simp [givenAt]
  | some e =>
    by_cases hlate : entry.k < e
    · simp [givenAt, hlate]
    · simp [givenAt, hlate, Nat.le_of_not_lt hlate]

/-- The place expected next is the one after some frame that was played, and no packet came of it
yet. -/
theorem Placed.place (h : Placed log) :
    ∀ e, placeAfter log = some e ↔
      (∃ entry ∈ log, entry.Played ∧ entry.k + 1 = e) ∧ ∀ entry ∈ log, entry.k < e := by
  induction log using List.reverseRecOn with
  | nil => simp [placeAfter]
  | append_singleton log last ih =>
    have hfront := ih h.front
    have hgiven := h.last
    have hplayed := played_iff hgiven
    have hunique : ∀ {e e'}, ((∃ entry ∈ log ++ [last], entry.Played ∧ entry.k + 1 = e) ∧
        ∀ entry ∈ log ++ [last], entry.k < e) →
          ((∃ entry ∈ log ++ [last], entry.Played ∧ entry.k + 1 = e') ∧
        ∀ entry ∈ log ++ [last], entry.k < e') → e = e' := by
      rintro e e' ⟨⟨entry, hentry, -, rfl⟩, hall⟩ ⟨⟨entry', hentry', -, rfl⟩, hall'⟩
      have hle := hall entry' hentry'
      have hge := hall' entry hentry
      omega
    have hsome : ∀ e, placeAfter (log ++ [last]) = some e →
        (∃ entry ∈ log ++ [last], entry.Played ∧ entry.k + 1 = e) ∧
          ∀ entry ∈ log ++ [last], entry.k < e := by
      intro e he
      rw [placeAfter_concat] at he
      cases hplace : placeAfter log with
      | none =>
        rw [hplace, Option.getD_none, Nat.zero_max, Option.some.injEq] at he
        have hempty : log = [] := by
          rcases log.eq_nil_or_concat with hnil | ⟨most, entry, rfl⟩
          · exact hnil
          · rw [List.concat_eq_append, placeAfter_concat] at hplace
            exact absurd hplace (by simp)
        subst hempty
        refine ⟨⟨last, by simp, hplayed.mpr (by simp [hplace]), he⟩, ?_⟩
        intro entry hentry
        rw [List.nil_append, List.mem_singleton] at hentry
        rw [hentry]
        omega
      | some e' =>
        obtain ⟨⟨entry, hentry, hwas, hk⟩, hall⟩ := (hfront e').mp hplace
        rw [hplace, Option.getD_some, Option.some.injEq] at he
        refine ⟨?_, ?_⟩
        · by_cases hnew : e' ≤ last.k
          · exact ⟨last, by simp, hplayed.mpr (by simpa [hplace] using hnew), by omega⟩
          · exact ⟨entry, List.mem_append_left _ hentry, hwas, by omega⟩
        · intro other hother
          rcases List.mem_append.mp hother with hold | hlast
          · have := hall other hold
            omega
          · rw [List.mem_singleton.mp hlast]
            omega
    intro e
    refine ⟨hsome e, fun he => ?_⟩
    rw [placeAfter_concat]
    rw [hunique he (hsome _ (placeAfter_concat log last))]

theorem placeAfter_isSome {before : List Entry} {entry : Entry} (hmem : entry ∈ before) :
    ∃ e, placeAfter before = some e := by
  rcases before.eq_nil_or_concat with rfl | ⟨most, last, rfl⟩
  · exact absurd hmem (by simp)
  · rw [List.concat_eq_append, placeAfter_concat]
    exact ⟨_, rfl⟩

theorem gap_ne_nil (missing : ℕ) (payload : List UInt8) (given : Given) :
    gap missing payload ++ [given] ≠ [] := by
  intro h
  exact absurd (List.append_eq_nil_iff.mp h).2 (by simp)

theorem Placed.dropped {before after : List Entry} {entry : Entry}
    (h : Placed (before ++ entry :: after)) :
    entry.given = [] ↔ Taken before entry.k := by
  have hgiven := h before entry after rfl
  have hplace := h.front.place
  constructor
  · intro hnone
    rw [hgiven] at hnone
    cases he : placeAfter before with
    | none => exact absurd hnone (by simp [he, givenAt])
    | some e =>
      rw [he, givenAt] at hnone
      obtain ⟨⟨last, hlast, hplayed, hk⟩, -⟩ := (hplace e).mp he
      have hlate : entry.k < e := by
        by_contra hlate
        rw [if_neg hlate] at hnone
        exact gap_ne_nil _ _ _ hnone
      rcases Nat.lt_or_eq_of_le (Nat.le_of_lt_succ (hk ▸ hlate)) with hbelow | hsame
      · exact Or.inr (Or.inr ⟨last, hlast, hplayed, hbelow⟩)
      · exact Or.inl ⟨last, hlast, hplayed, hsame.symm⟩
  · intro htaken
    have hbelow : ∃ last ∈ before, entry.k ≤ last.k := by
      rcases htaken with ⟨last, hlast, -, hk⟩ | ⟨last, hlast, -, -, hk⟩ | ⟨last, hlast, -, hk⟩
      · exact ⟨last, hlast, hk.ge⟩
      · exact ⟨last, hlast, hk.le⟩
      · exact ⟨last, hlast, hk.le⟩
    obtain ⟨last, hlast, hk⟩ := hbelow
    obtain ⟨e, he⟩ := placeAfter_isSome hlast
    have hlt := ((hplace e).mp he).2 last hlast
    rw [hgiven, he, givenAt, if_pos (by omega)]

theorem Placed.ascending (h : Placed log) :
    ((log.filter fun entry => entry.Played).map Entry.k).Pairwise (· < ·) := by
  induction log using List.reverseRecOn with
  | nil => exact List.Pairwise.nil
  | append_singleton log last ih =>
    rw [List.filter_append, List.map_append, List.pairwise_append]
    refine ⟨ih h.front, ?_, ?_⟩
    · by_cases hlast : last.Played <;> simp [hlast]
    · intro j hj k hk
      obtain ⟨entry, hentry, rfl⟩ := List.mem_map.mp hj
      obtain ⟨other, hother, rfl⟩ := List.mem_map.mp hk
      obtain ⟨hmem, hplayed⟩ := List.mem_filter.mp hother
      rw [List.mem_singleton.mp hmem] at hplayed ⊢
      have hbefore := List.mem_of_mem_filter hentry
      obtain ⟨e, he⟩ := placeAfter_isSome hbefore
      have hlt := ((h.front.place e).mp he).2 entry hbefore
      have hle := (played_iff h.last).mp (of_decide_eq_true hplayed) e he
      omega

/-- The packets after one that was played, until the next that is, leave the place expected next. -/
theorem Placed.stays {before middle : List Entry} {last : Entry}
    (h : Placed (before ++ last :: middle))
    (hlast : last.Played) (hmiddle : ∀ entry ∈ middle, ¬ entry.Played) :
    placeAfter (before ++ last :: middle) = some (last.k + 1) ∧
      ∀ entry ∈ middle, entry.given = [] := by
  induction middle using List.reverseRecOn with
  | nil =>
    refine ⟨?_, by simp⟩
    have hle := (played_iff h.last).mp hlast
    rw [placeAfter_concat]
    cases hplace : placeAfter before with
    | none => rw [Option.getD_none, Nat.zero_max]
    | some e =>
      have := hle e hplace
      rw [Option.getD_some, max_eq_right (by omega)]
  | append_singleton middle entry ih =>
    have hsplit :
        before ++ last :: (middle ++ [entry]) = (before ++ last :: middle) ++ [entry] := by simp
    rw [hsplit] at h ⊢
    obtain ⟨hplace, hnone⟩ :=
      ih h.front fun other hother => hmiddle other (List.mem_append_left _ hother)
    have hlate : entry.k < last.k + 1 := by
      by_contra hnot
      apply hmiddle entry (by simp)
      rw [played_iff h.last, hplace]
      intro e he
      rw [← Option.some.inj he]
      omega
    refine ⟨by rw [placeAfter_concat, hplace, Option.getD_some, max_eq_left hlate], ?_⟩
    intro other hother
    rcases List.mem_append.mp hother with hold | hnew
    · exact hnone other hold
    · rw [List.mem_singleton.mp hnew, h.last, hplace, givenAt, if_pos hlate]

theorem Placed.inPlace (h : Placed log) : InPlace log where
  ascending := h.ascending
  first entry hentry := by
    obtain ⟨rest, rfl⟩ : ∃ rest, log = entry :: rest := by
      cases log with
      | nil => exact absurd hentry (by simp)
      | cons first rest => exact ⟨rest, by rw [Option.some.inj hentry]⟩
    exact h [] entry rest rfl
  between before last middle entry after hlog hlast hentry hmiddle := by
    have hsplit : log = (before ++ last :: middle) ++ entry :: after := by simp [hlog]
    rw [hsplit] at h
    obtain ⟨hplace, hnone⟩ := h.front.stays hlast hmiddle
    have hgiven := h _ entry after rfl
    have hle := (played_iff hgiven).mp hentry _ hplace
    have hflat : middle.flatMap Entry.given = [] := by
      rw [List.flatMap_eq_nil_iff]
      exact hnone
    refine ⟨by omega, ?_⟩
    rw [hflat, List.nil_append, hgiven, hplace, givenAt, if_neg (by omega), Nat.sub_sub]
  dropped before entry after hlog := by
    rw [hlog] at h
    exact h.dropped

end Played

section Run
variable {outside : Outside Decoder Gate Frame} {who : Person} [DecidableEq Person]

/-- The loop by the frames' own numbers. -/
def playsAt (outside : Outside Decoder Gate Frame) (who : Person) (st : State Person Decoder Gate ℕ)
    (stream : List Heard) : List (List (Out Person Frame)) :=
  receiveAll outside arrivalAt (· + 1) st (stream.map (Heard.event who id))

/-- Step lemma: one thing heard is one turn of the loop by the frames' own numbers, and the state
stays the image of that one's. -/
theorem receive_heard (hok : outside.Succeeds) (base : UInt32) {place : Option ℕ}
    {st : State Person Decoder Gate ℕ}
    (hready : Ready who place st) {heard : Heard} (hfull : heard.Full) (hnear : heard.Near place) :
    ∃ outs st', receive outside arrivalAt (· + 1) st (heard.event who id) = (outs, some st') ∧
      receive outside arrival (· + frameTicks) (st.map (stampOf base))
        (heard.event who (stampOf base)) =
        (outs, some (st'.map (stampOf base))) ∧
      Ready who (heard.expects place) st' ∧
      ∀ k payload now, heard = .frame k payload now →
        outs.filterMap Out.given = givenAt place k payload := by
  cases heard with
  | quiet now =>
    obtain ⟨outs, st', hstep, hready'⟩ := receive_quiet outside hready now
    refine ⟨outs, st', hstep, ?_, hready', fun k payload now h => by cases h⟩
    rw [Heard.event, receive_quiet_map arrivalAt (· + 1), hstep]
    rfl
  | frame k payload now =>
    obtain ⟨outs, st', hstep, hgiven, hready'⟩ := receive_frame hok hready k hfull now
    refine ⟨outs, st', hstep, ?_, hready', ?_⟩
    · obtain ⟨decoder, gate, hturn⟩ := turnTo_ready hok hready
      rw [Heard.event, receive_map arrivalAt (· + 1), hstep]
      · rfl
      · rw [hturn]
        exact arrival_stampOf base hnear
      · exact stampOf_next base k
    · intro k' payload' now' h
      injection h with hk hpayload
      rw [← hk, ← hpayload]
      exact hgiven

/-- Run lemma: the stamps' start does not show. -/
theorem receiveAll_heard (hok : outside.Succeeds) (base : UInt32) {stream : List Heard}
    {place : Option ℕ}
    {st : State Person Decoder Gate ℕ} (hready : Ready who place st)
    (hfull : ∀ heard ∈ stream, heard.Full)
    (hstays : Stays place stream) :
    receiveAll outside arrival (· + frameTicks) (st.map (stampOf base))
      (stream.map (Heard.event who (stampOf base))) =
      playsAt outside who st stream := by
  induction stream generalizing place st with
  | nil => rfl
  | cons heard stream ih =>
    obtain ⟨hnear, hrest⟩ := hstays
    obtain ⟨outs, st', hstep, hcode, hready', -⟩ :=
      receive_heard hok base hready (hfull heard List.mem_cons_self) hnear
    have hmore := ih hready' (fun other hother => hfull other (List.mem_cons_of_mem _ hother)) hrest
    simp only [List.map_cons, receiveAll, playsAt, hcode, hstep]
    rw [hmore]
    rfl

/-- Run lemma: every packet's frames are what the place expected when it came says. -/
theorem entries_placed (hok : outside.Succeeds) {stream : List Heard} {place : Option ℕ}
    {st : State Person Decoder Gate ℕ} (hready : Ready who place st)
    (hfull : ∀ heard ∈ stream, heard.Full)
    (hstays : Stays place stream) (front : List Entry) (hfront : Placed front)
    (hplace : placeAfter front = place) :
    Placed (front ++ entries stream (playsAt outside who st stream)) := by
  induction stream generalizing place st front with
  | nil => simpa [entries] using hfront
  | cons heard stream ih =>
    obtain ⟨hnear, hrest⟩ := hstays
    obtain ⟨outs, st', hstep, -, hready', hgiven⟩ :=
      receive_heard hok 0 hready (hfull heard List.mem_cons_self) hnear
    have hmore := ih hready' (fun other hother => hfull other (List.mem_cons_of_mem _ hother)) hrest
    have hplays :
        playsAt outside who st (heard :: stream) = outs :: playsAt outside who st' stream := by
      simp only [playsAt, List.map_cons, receiveAll, hstep]
    rw [hplays]
    cases heard with
    | quiet now => exact hmore front hfront hplace
    | frame k payload now =>
      let entry : Entry := ⟨k, payload, outs.filterMap Out.given⟩
      have hentries :
          entries (.frame k payload now :: stream) (outs :: playsAt outside who st' stream) =
          entry :: entries stream (playsAt outside who st' stream) := rfl
      have hnext : Placed (front ++ [entry]) := by
        intro before last after hsplit
        rcases List.eq_nil_or_concat after with rfl | ⟨most, final, rfl⟩
        · obtain ⟨hsame, hlast⟩ := List.append_inj' hsplit rfl
          injection hlast with hlast
          rw [← hlast, ← hsame, hplace]
          exact hgiven k payload now rfl
        · rw [List.concat_eq_append, ← List.cons_append, ← List.append_assoc] at hsplit
          obtain ⟨hsame, -⟩ := List.append_inj' hsplit rfl
          exact hfront before last most hsame
      rw [hentries, ← List.singleton_append, ← List.append_assoc]
      apply hmore _ hnext
      rw [placeAfter_concat, hplace]
      rfl

/-- Every frame of a voice is played once, in its place, wherever its stamps start. -/
theorem frames_in_place (hok : outside.Succeeds) (base : UInt32) {stream : List Heard}
    (hfull : ∀ heard ∈ stream, heard.Full) (hstays : Stays none stream) :
    InPlace (entries stream (plays outside who base stream)) ∧
      ∀ base', plays outside who base' stream = plays outside who base stream := by
  have hready : Ready who none (State.start : State Person Decoder Gate ℕ) := ⟨rfl, rfl⟩
  have hplays : ∀ base, plays outside who base stream = playsAt outside who .start stream :=
      fun base =>
    receiveAll_heard hok base hready hfull hstays
  refine ⟨?_, fun base' => (hplays base').trans (hplays base).symm⟩
  rw [hplays]
  apply Placed.inPlace
  exact entries_placed hok hready hfull hstays []
    (fun before entry after h => absurd h (by simp)) rfl

/-- A decoder that plays what a packet holds, and a gate that says nothing. -/
def plain : Outside Unit Unit (List UInt8) where
  newDecoder := some ()
  decode _ payload := (some payload, ())
  rebuild _ payload := (some payload, ())
  conceal _ := (some [], ())
  gate := ()
  isOn _ := false
  update _ _ _ := (none, ())

/-- A stream whose stamps wrap: one frame lost, two that come too late, and a pause. -/
def wrapping : List Heard :=
  [.frame 0 [1] 0, .frame 3 [4] 60, .frame 2 [3] 61, .quiet 300, .frame 3 [4] 301, .frame 4 [5] 302,
    .frame 40 [41] 900]

theorem frames_in_place_wrapped :
    (entries wrapping (plays plain () 4294966000 wrapping)).map Entry.given =
      [[.frame (.decoded [1])], [.frame .concealed, .frame (.rebuilt [4]), .frame (.decoded [4])],
        [], [], [.frame (.decoded [5])], [.resume, .frame (.decoded [41])]] ∧
    InPlace (entries wrapping (plays plain () 4294966000 wrapping)) ∧
      ∀ base', plays plain () base' wrapping = plays plain () 4294966000 wrapping := by
  refine ⟨by decide +kernel, ?_⟩
  apply frames_in_place
  · constructor <;> simp [plain]
  · simp [wrapping, Heard.Full]
  · simp [wrapping, Stays, Heard.Near, Heard.expects]

end Run
end Linger.VoiceFrames
