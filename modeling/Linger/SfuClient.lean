import Mathlib.Data.List.Nodup
import Linger.Wire

/-! One client of the forwarding server: what its connection does with everybody else's
voice, and the offers that tell it so. -/
namespace Linger.Sfu

/-- An m-line's name, which `str0m` draws. -/
abbrev Mid := ℕ

/-- How many times an offer is drawn again for a repeated mid. -/
def draws : ℕ := 32

/-- One receiving m-line and the session whose voice it carries. -/
structure Track where
  mid : Mid
  session : SessionId
  deriving DecidableEq, Repr

/-- `sdp` is the m-lines it lists, those agreed before and those it adds. -/
structure Offer where
  session : SessionId
  sdp : List Mid
  tracks : List Track
  bits : ℕ
  deriving DecidableEq, Repr

/-- What one client's connection is doing with another client's voice. -/
inductive OutState
  | toOpen
  | negotiating (mid : Mid)
  | open (mid : Mid)
  | toStop (mid : Mid)
  | negotiatingStop (mid : Mid)
  deriving DecidableEq, Repr

structure Out where
  origin : SessionId
  state : OutState
  deriving DecidableEq, Repr

/-- The m-lines a connection has agreed on. -/
structure Rtc where
  lines : List Mid
  deriving DecidableEq, Repr

/-- What an offer adds once it is answered. -/
structure SdpPendingOffer where
  added : List Mid
  deriving DecidableEq, Repr

/-- An answer's text, as `str0m` takes it. -/
inductive Answer
  | applies
  | unparsable
  | refused
  deriving DecidableEq, Repr

inductive AnswerError
  | noOfferOut
  | unparsable
  | refused
  deriving DecidableEq, Repr

/-- `offers` are those it was sent, in order, and `answered` how many of them an answer
was applied to. -/
structure Client where
  session : SessionId
  room : RoomId
  rtc : Rtc
  mic : Option Mid
  pending : Option SdpPendingOffer
  outs : List Out
  bits : ℕ
  offers : List Offer
  answered : ℕ
  deriving DecidableEq, Repr

/-- The out lines an offer puts in it, each new one on the next mid drawn. -/
def offerOuts (draw : ℕ → Mid) : ℕ → List Out → List Out
  | _, [] => []
  | k, ⟨origin, .toOpen⟩ :: outs => ⟨origin, .negotiating (draw k)⟩ :: offerOuts draw (k + 1) outs
  | k, ⟨origin, .toStop mid⟩ :: outs => ⟨origin, .negotiatingStop mid⟩ :: offerOuts draw k outs
  | k, ⟨origin, .negotiating mid⟩ :: outs => ⟨origin, .negotiating mid⟩ :: offerOuts draw k outs
  | k, ⟨origin, .open mid⟩ :: outs => ⟨origin, .open mid⟩ :: offerOuts draw k outs
  | k, ⟨origin, .negotiatingStop mid⟩ :: outs =>
    ⟨origin, .negotiatingStop mid⟩ :: offerOuts draw k outs

/-- The track an offer names an out line by. -/
def Out.track (out : Out) : Option Track :=
  match out.state with
  | .negotiating mid => some ⟨mid, out.origin⟩
  | .open mid => some ⟨mid, out.origin⟩
  | _ => none

def Out.isToOpen (out : Out) : Bool := out.state = .toOpen

def Out.isToStop (out : Out) : Bool :=
  match out.state with
  | .toStop _ => true
  | _ => false

namespace Client

/-- How many of the m-lines drawn go to the microphone. -/
def micLines (c : Client) : ℕ := if c.mic.isNone then 1 else 0

/-- The mids an offer draws: the microphone's, if it has none, and one for each voice
to open. -/
def drawn (c : Client) (draw : ℕ → Mid) : List Mid :=
  (List.range (c.micLines + c.outs.countP Out.isToOpen)).map draw

def hasChanges (c : Client) : Bool :=
  c.mic.isNone || c.outs.any fun out => out.isToOpen || out.isToStop

/-- The offer that is made once no mid in it repeats. -/
def offer (c : Client) (draw : ℕ → Mid) : Client :=
  let outs := offerOuts draw c.micLines c.outs
  { c with
    mic := if c.mic.isNone then some (draw 0) else c.mic
    outs := outs
    pending := some ⟨c.drawn draw⟩
    offers := c.offers ++
      [⟨c.session, c.rtc.lines ++ c.drawn draw, outs.filterMap Out.track, c.bits⟩] }

/-- Offer whatever has changed, unless an offer is already out. `draw` is what `str0m`
names the m-lines, by the attempt and by their order in it. -/
def negotiate (c : Client) (draw : ℕ → ℕ → Mid) : Client :=
  if c.pending.isSome then c
  else
    match (List.range draws).find? fun attempt => decide (c.drawn (draw attempt)).Nodup with
    | none => c
    | some attempt => if c.hasChanges then c.offer (draw attempt) else c

end Client

/-- What becomes of an out line once the offer it is in is answered. -/
def Out.accepted (out : Out) : Option Out :=
  match out.state with
  | .negotiating mid => some { out with state := .open mid }
  | .negotiatingStop _ => none
  | _ => some out

/-- Apply the answer to the offer that's out. -/
def Client.accept (c : Client) (answer : Answer) : Client × Except AnswerError Unit :=
  match c.pending with
  | none => (c, .error .noOfferOut)
  | some pending =>
    match answer with
    | .unparsable => ({ c with pending := none }, .error .unparsable)
    | .refused => ({ c with pending := none }, .error .refused)
    | .applies =>
      ({ c with
          pending := none
          rtc := ⟨c.rtc.lines ++ pending.added⟩
          outs := c.outs.filterMap Out.accepted
          answered := c.answered + 1 }, .ok ())

/-- What becomes of an out line when `origin` has left. -/
def Out.forget (origin : SessionId) (out : Out) : Option Out :=
  if out.origin ≠ origin then some out
  else
    match out.state with
    | .toOpen => none
    | .negotiating mid => some { out with state := .toStop mid }
    | .open mid => some { out with state := .toStop mid }
    | .toStop _ => some out
    | .negotiatingStop _ => some out

/-- Where `origin`'s voice goes out, if it is this line's and answered. -/
def Out.goesOut (origin : SessionId) (out : Out) : Option Mid :=
  match out.state with
  | .open mid => if out.origin = origin then some mid else none
  | _ => none

namespace Client

/-- Stop passing on `origin`'s voice: it left. -/
def forget (c : Client) (origin : SessionId) : Client :=
  { c with outs := c.outs.filterMap (Out.forget origin) }

/-- The m-line `origin`'s voice goes out on, once answered. -/
def outFor (c : Client) (origin : SessionId) : Option Mid :=
  c.outs.findSome? (Out.goesOut origin)

end Client

/-- Whose voice an out line is for, unless they have left. -/
def Out.wanted (out : Out) : Option SessionId :=
  match out.state with
  | .toOpen => some out.origin
  | .negotiating _ => some out.origin
  | .open _ => some out.origin
  | _ => none

/-- The m-line of an out line that has been offered. -/
def Out.mid (out : Out) : Option Mid :=
  match out.state with
  | .toOpen => none
  | .negotiating mid => some mid
  | .open mid => some mid
  | .toStop mid => some mid
  | .negotiatingStop mid => some mid

section Outs
variable {draw : ℕ → Mid} {k : ℕ} {outs : List Out} {out : Out}

theorem wanted_offerOuts :
    (offerOuts draw k outs).filterMap Out.wanted = outs.filterMap Out.wanted := by
  induction outs generalizing k with
  | nil => rfl
  | cons out outs ih =>
    obtain ⟨origin, state⟩ := out
    cases state <;> simp [offerOuts, List.filterMap_cons, Out.wanted, ih]

/-- The mids drawn are all that an offer adds to the out lines'. -/
theorem mids_offerOuts : ((offerOuts draw k outs).filterMap Out.mid).Perm
    (outs.filterMap Out.mid ++ (List.range (outs.countP Out.isToOpen)).map fun i =>
      draw (k + i)) := by
  induction outs generalizing k with
  | nil => simp [offerOuts]
  | cons out outs ih =>
    obtain ⟨origin, state⟩ := out
    cases state with
    | toOpen =>
      have hrange : (List.range (outs.countP Out.isToOpen + 1)).map (fun i => draw (k + i)) =
          draw k :: (List.range (outs.countP Out.isToOpen)).map fun i => draw (k + 1 + i) := by
        rw [List.range_succ_eq_map, List.map_cons, List.map_map]
        congr 1
        apply List.map_congr_left
        intro i _
        exact congrArg draw (by simp only [Nat.succ_eq_add_one]; omega)
      have hcount : (⟨origin, .toOpen⟩ :: outs : List Out).countP Out.isToOpen =
          outs.countP Out.isToOpen + 1 := List.countP_cons_of_pos rfl
      rw [hcount, hrange]
      exact (List.Perm.cons _ ih).trans List.perm_middle.symm
    | negotiating mid | «open» mid | toStop mid | negotiatingStop mid =>
      simpa [offerOuts, Out.mid, Out.isToOpen, List.filterMap_cons] using ih

/-- An out line in an offer is a new one on a mid that was drawn, one to be stopped, or
one that was offered before. -/
theorem mem_offerOuts (h : out ∈ offerOuts draw k outs) :
    (∃ i, i < outs.countP Out.isToOpen ∧ out.state = .negotiating (draw (k + i)) ∧
      ⟨out.origin, .toOpen⟩ ∈ outs) ∨
    (∃ mid, out.state = .negotiatingStop mid ∧ ⟨out.origin, .toStop mid⟩ ∈ outs) ∨
    (out ∈ outs ∧ out.isToOpen = false ∧ out.isToStop = false) := by
  induction outs generalizing k with
  | nil => cases h
  | cons first outs ih =>
    obtain ⟨origin, state⟩ := first
    have hlater (k' : ℕ) (hmem : out ∈ offerOuts draw k' outs)
        (hk : ∀ i, i < outs.countP Out.isToOpen → ∃ j, k' + i = k + j ∧
          j < (⟨origin, state⟩ :: outs : List Out).countP Out.isToOpen) :
        (∃ i, i < (⟨origin, state⟩ :: outs : List Out).countP Out.isToOpen ∧
          out.state = .negotiating (draw (k + i)) ∧
          ⟨out.origin, .toOpen⟩ ∈ (⟨origin, state⟩ :: outs : List Out)) ∨
        (∃ mid, out.state = .negotiatingStop mid ∧
          ⟨out.origin, .toStop mid⟩ ∈ (⟨origin, state⟩ :: outs : List Out)) ∨
        (out ∈ (⟨origin, state⟩ :: outs : List Out) ∧ out.isToOpen = false ∧
          out.isToStop = false) := by
      rcases ih hmem with ⟨i, hi, hs, ho⟩ | ⟨mid, hs, ho⟩ | ⟨ho, hs⟩
      · obtain ⟨j, hj, hlt⟩ := hk i hi
        exact .inl ⟨j, hlt, hj ▸ hs, List.mem_cons_of_mem _ ho⟩
      · exact .inr (.inl ⟨mid, hs, List.mem_cons_of_mem _ ho⟩)
      · exact .inr (.inr ⟨List.mem_cons_of_mem _ ho, hs⟩)
    cases state with
    | toOpen =>
      have hcount : (⟨origin, .toOpen⟩ :: outs : List Out).countP Out.isToOpen =
          outs.countP Out.isToOpen + 1 := List.countP_cons_of_pos rfl
      rcases List.mem_cons.mp h with rfl | hmem
      · exact .inl ⟨0, by omega, rfl, List.mem_cons_self⟩
      · exact hlater (k + 1) hmem fun i hi => ⟨i + 1, by omega, by omega⟩
    | toStop mid =>
      rcases List.mem_cons.mp h with rfl | hmem
      · exact .inr (.inl ⟨mid, rfl, List.mem_cons_self⟩)
      · exact hlater k hmem fun i hi => ⟨i, rfl, hi⟩
    | negotiating mid | «open» mid | negotiatingStop mid =>
      rcases List.mem_cons.mp h with rfl | hmem
      · exact .inr (.inr ⟨List.mem_cons_self, rfl, rfl⟩)
      · exact hlater k hmem fun i hi => ⟨i, rfl, hi⟩

theorem wanted_forget (origin : SessionId) :
    (outs.filterMap (Out.forget origin)).filterMap Out.wanted =
      (outs.filterMap Out.wanted).filter fun s => s ≠ origin := by
  rw [List.filterMap_filterMap, List.filter_filterMap]
  apply List.filterMap_congr
  intro ⟨o, state⟩ _
  by_cases ho : o = origin <;> cases state <;> simp [Out.forget, Out.wanted, ho, Option.filter]

theorem wanted_accepted :
    (outs.filterMap Out.accepted).filterMap Out.wanted = outs.filterMap Out.wanted := by
  rw [List.filterMap_filterMap]
  apply List.filterMap_congr
  intro ⟨o, state⟩ _
  cases state <;> rfl

theorem mids_forget (origin : SessionId) :
    (outs.filterMap (Out.forget origin)).filterMap Out.mid = outs.filterMap Out.mid := by
  rw [List.filterMap_filterMap]
  apply List.filterMap_congr
  intro ⟨o, state⟩ _
  by_cases ho : o = origin <;> cases state <;> simp [Out.forget, Out.mid, ho]

theorem mids_accepted :
    ((outs.filterMap Out.accepted).filterMap Out.mid).Sublist (outs.filterMap Out.mid) := by
  induction outs with
  | nil => exact List.Sublist.refl _
  | cons out outs ih =>
    obtain ⟨o, state⟩ := out
    cases state with
    | negotiatingStop mid => simpa [Out.accepted, Out.mid, List.filterMap_cons] using ih.cons mid
    | toOpen | negotiating mid | «open» mid | toStop mid =>
      simpa [Out.accepted, Out.mid, List.filterMap_cons] using ih

/-- An out line that stays wanted was wanted. -/
theorem mem_forget {origin : SessionId} (h : out ∈ outs.filterMap (Out.forget origin)) :
    (out ∈ outs ∧ (out.origin = origin → out.wanted = none)) ∨
    ∃ mid, out = ⟨origin, .toStop mid⟩ ∧
      (⟨origin, .negotiating mid⟩ ∈ outs ∨ ⟨origin, .open mid⟩ ∈ outs) := by
  obtain ⟨⟨o, state⟩, hmem, hout⟩ := List.mem_filterMap.mp h
  by_cases ho : o = origin
  · subst ho
    cases state <;> simp only [Out.forget, ne_eq, not_true_eq_false, if_false, Option.some.injEq,
      reduceCtorEq] at hout
    · exact .inr ⟨_, hout.symm, .inl hmem⟩
    · exact .inr ⟨_, hout.symm, .inr hmem⟩
    · exact .inl ⟨hout ▸ hmem, fun _ => hout ▸ rfl⟩
    · exact .inl ⟨hout ▸ hmem, fun _ => hout ▸ rfl⟩
  · simp only [Out.forget, ne_eq, ho, not_false_eq_true, if_true, Option.some.injEq] at hout
    subst hout
    exact .inl ⟨hmem, fun h => absurd h ho⟩

end Outs

/-- Some draw of `n` m-lines repeats no mid. -/
def Apart (draw : ℕ → ℕ → Mid) (n : ℕ) : Prop :=
  ∃ attempt, attempt < draws ∧ ((List.range n).map (draw attempt)).Nodup

instance (draw : ℕ → ℕ → Mid) (n : ℕ) : Decidable (Apart draw n) :=
  inferInstanceAs (Decidable (∃ attempt, attempt < draws ∧ _))

theorem Apart.mono {draw : ℕ → ℕ → Mid} {m n : ℕ} (h : Apart draw n) (hm : m ≤ n) :
    Apart draw m := by
  obtain ⟨attempt, hlt, hnodup⟩ := h
  exact ⟨attempt, hlt, hnodup.sublist ((List.range_sublist.mpr hm).map _)⟩

theorem apart_of_injective {draw : ℕ → ℕ → Mid} (h : Function.Injective (draw 0)) (n : ℕ) :
    Apart draw n :=
  ⟨0, by unfold draws; omega, List.nodup_range.map h⟩

namespace Client
variable {c : Client} {draw : ℕ → ℕ → Mid} {n : ℕ}

/-- How many m-lines its next offer would add. -/
def fresh (c : Client) : ℕ := c.micLines + c.outs.countP Out.isToOpen

theorem fresh_le (c : Client) : c.fresh ≤ (c.outs.filterMap Out.wanted).length + 1 := by
  have hmic : c.micLines ≤ 1 := by
    unfold micLines
    split <;> omega
  have hopen : c.outs.countP Out.isToOpen ≤ (c.outs.filterMap Out.wanted).length := by
    induction c.outs with
    | nil => exact Nat.le_refl _
    | cons out outs ih =>
      obtain ⟨origin, state⟩ := out
      cases state <;> simp [List.filterMap_cons, Out.isToOpen, Out.wanted] <;> omega
  unfold fresh
  omega

theorem hasChanges_eq_false : c.hasChanges = false ↔
    c.mic.isSome = true ∧ ∀ out ∈ c.outs, out.isToOpen = false ∧ out.isToStop = false := by
  simp [hasChanges]

/-- The three ways `negotiate` leaves a client alone, and the one it doesn't. -/
theorem negotiate_cases (c : Client) (draw : ℕ → ℕ → Mid) :
    (c.negotiate draw = c ∧ (c.pending.isSome = true ∨ c.hasChanges = false ∨
      ¬ Apart draw c.fresh)) ∨
    ∃ attempt, attempt < draws ∧ c.pending = none ∧ c.hasChanges = true ∧
      (c.drawn (draw attempt)).Nodup ∧ c.negotiate draw = c.offer (draw attempt) := by
  unfold negotiate
  split
  · next hp => exact .inl ⟨rfl, .inl hp⟩
  · next hp =>
    split
    · next hnone =>
      refine .inl ⟨rfl, .inr (.inr ?_)⟩
      rintro ⟨attempt, hlt, hnodup⟩
      exact List.find?_eq_none.mp hnone attempt (List.mem_range.mpr hlt) (decide_eq_true hnodup)
    · next attempt hsome =>
      have hlt := List.mem_range.mp (List.mem_of_find?_eq_some hsome)
      have hnodup : (c.drawn (draw attempt)).Nodup := by simpa using List.find?_some hsome
      cases hc : c.hasChanges with
      | false => exact .inl ⟨rfl, .inr (.inl rfl)⟩
      | true => exact .inr ⟨attempt, hlt, Option.not_isSome_iff_eq_none.mp hp, rfl, hnodup, rfl⟩

/-- With a draw that repeats no mid, whatever has changed is offered. -/
theorem negotiate_apart (h : Apart draw n) (hn : c.fresh ≤ n) :
    (c.negotiate draw = c ∧ (c.pending.isSome = true ∨ c.hasChanges = false)) ∨
    ∃ attempt, attempt < draws ∧ c.pending = none ∧ c.hasChanges = true ∧
      (c.drawn (draw attempt)).Nodup ∧ c.negotiate draw = c.offer (draw attempt) := by
  rcases c.negotiate_cases draw with ⟨he, hp | hc | ha⟩ | hoffer
  · exact .inl ⟨he, .inl hp⟩
  · exact .inl ⟨he, .inr hc⟩
  · exact absurd (h.mono hn) ha
  · exact .inr hoffer

@[simp] theorem negotiate_session : (c.negotiate draw).session = c.session := by
  rcases c.negotiate_cases draw with ⟨he, -⟩ | ⟨attempt, -, -, -, -, he⟩ <;> rw [he]; rfl

@[simp] theorem negotiate_room : (c.negotiate draw).room = c.room := by
  rcases c.negotiate_cases draw with ⟨he, -⟩ | ⟨attempt, -, -, -, -, he⟩ <;> rw [he]; rfl

@[simp] theorem negotiate_bits : (c.negotiate draw).bits = c.bits := by
  rcases c.negotiate_cases draw with ⟨he, -⟩ | ⟨attempt, -, -, -, -, he⟩ <;> rw [he]; rfl

@[simp] theorem negotiate_rtc : (c.negotiate draw).rtc = c.rtc := by
  rcases c.negotiate_cases draw with ⟨he, -⟩ | ⟨attempt, -, -, -, -, he⟩ <;> rw [he]; rfl

theorem negotiate_wanted :
    (c.negotiate draw).outs.filterMap Out.wanted = c.outs.filterMap Out.wanted := by
  rcases c.negotiate_cases draw with ⟨he, -⟩ | ⟨attempt, -, -, -, -, he⟩
  · rw [he]
  · rw [he]
    exact wanted_offerOuts

/-- An answer either applies to the offer that is out, or changes nothing but that. -/
theorem accept_cases (c : Client) (answer : Answer) :
    (∃ pending, c.pending = some pending ∧ answer = .applies ∧
      c.accept answer = ({ c with
        pending := none
        rtc := ⟨c.rtc.lines ++ pending.added⟩
        outs := c.outs.filterMap Out.accepted
        answered := c.answered + 1 }, .ok ())) ∨
    ((c.pending = none ∨ answer ≠ .applies) ∧ ∃ error,
      c.accept answer = ({ c with pending := none }, .error error)) := by
  obtain ⟨session, room, rtc, mic, pending, outs, bits, offers, answered⟩ := c
  cases pending with
  | none => exact .inr ⟨.inl rfl, _, rfl⟩
  | some pending =>
    cases answer with
    | applies => exact .inl ⟨pending, rfl, rfl, rfl⟩
    | unparsable => exact .inr ⟨.inr (by simp), _, rfl⟩
    | refused => exact .inr ⟨.inr (by simp), _, rfl⟩

end Client

end Linger.Sfu
