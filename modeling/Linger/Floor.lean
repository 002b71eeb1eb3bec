import Linger.StepMachine
import Linger.KeyedLists
import Mathlib.Algebra.Order.Field.Rat
import Mathlib.Data.List.MinMax

/-! Who a room hears: at most the six loudest voices at once, each in a seat it keeps while it is
talking. -/
namespace Linger.Floors
open StepMachine
open KeyedLists

universe u
variable {σ : Type u} [DecidableEq σ]

section Code

def LOUDEST : ℕ := 6

/-- Times are in nanoseconds. -/
def HOLD : ℕ := 500000000

def QUIET : ℕ := 200000000
def MARGIN : ℚ := 6
def SILENCE_MAX : ℕ := 3
def UNKNOWN : ℚ := -127
def NEWEST : ℚ := 3 / 10

structure Talker (σ : Type u) where
  session : σ
  loudness : ℚ
  heard : ℕ
  seated : Bool
  deriving DecidableEq

def Talker.nowLoud (now : ℕ) (talker : Talker σ) : ℚ :=
  if QUIET ≤ now - talker.heard then UNKNOWN else talker.loudness

abbrev Floor (σ : Type u) := List (Talker σ)

/-- Its seat is free again once it has sent nothing for `HOLD`. -/
def Talker.expired (now : ℕ) (talker : Talker σ) : Talker σ :=
  if talker.seated ∧ HOLD ≤ now - talker.heard then { talker with seated := false } else talker

/-- Whether it is still to be remembered when `session` is heard. -/
def Talker.remembered (session : σ) (now : ℕ) (talker : Talker σ) : Bool :=
  talker.session = session ∨ talker.seated = true ∨ now - talker.heard < HOLD

def Talker.hears (level : ℚ) (now : ℕ) (talker : Talker σ) : Talker σ :=
  { talker with
    loudness :=
      if HOLD ≤ now - talker.heard then level else talker.loudness * (1 - NEWEST) + level * NEWEST
    heard := now }

/-- The floor with its first talker of this session changed. -/
def onFirst (session : σ) (turn : Talker σ → Talker σ) (floor : Floor σ) : Floor σ :=
  floor.replaceF fun talker => if talker.session = session then some (turn talker) else none

/-- The floor with this voice's loudness taken, before anything is made of it. -/
def noted (floor : Floor σ) (session : σ) (level : Option ℤ) (now : ℕ) : Floor σ :=
  let floor := (floor.map (Talker.expired now)).filter (Talker.remembered session now)
  let level : ℚ := level.elim UNKNOWN fun level => level
  if floor.any fun talker => talker.session = session then
    onFirst session (Talker.hears level now) floor
  else floor ++ [⟨session, level, now, false⟩]

def seats (floor : Floor σ) : ℕ := floor.countP Talker.seated

def seat (session : σ) : Floor σ → Floor σ :=
  onFirst session fun talker => { talker with seated := true }

def unseat (session : σ) : Floor σ → Floor σ :=
  onFirst session fun talker => { talker with seated := false }

/-- The first of the seated that are the least loud. -/
def quietest (floor : Floor σ) (now : ℕ) : Option (Talker σ) :=
  (floor.filter Talker.seated).argmin (Talker.nowLoud now)

def hear (floor : Floor σ) (session : σ) (level : Option ℤ) (bytes now : ℕ) : Floor σ × Bool :=
  if bytes ≤ SILENCE_MAX then (floor, false)
  else
    let floor := noted floor session level now
    match floor.find? fun talker => talker.session = session with
    | none => (floor, false)
    | some talker =>
      if talker.seated then (floor, true)
      else if seats floor < LOUDEST then (seat session floor, true)
      else
        match quietest floor now with
        | some quietest =>
          if quietest.nowLoud now + MARGIN ≤ talker.loudness then
            (seat session (unseat quietest.session floor), true)
          else (floor, false)
        | none => (floor, false)

def forget (floor : Floor σ) (session : σ) : Floor σ :=
  floor.filter fun talker => talker.session ≠ session

inductive Act (σ : Type u)
  | hear (session : σ) (level : Option ℤ) (bytes now : ℕ)
  | forget (session : σ)

/-- A floor, the time it last heard at, and every packet longer than silence that it has heard. -/
structure Room (σ : Type u) where
  floor : Floor σ
  time : ℕ
  packets : List (σ × ℕ)
  deriving DecidableEq

def step (room : Room σ) : Act σ → Option (Room σ)
  | .hear session level bytes now =>
    if room.time ≤ now then
      some
        { floor := (hear room.floor session level bytes now).1
          time := now
          packets := if bytes ≤ SILENCE_MAX then room.packets else (session, now) :: room.packets }
    else none
  | .forget session => some { room with floor := forget room.floor session }

def machine : Machine (Room σ) (Act σ) := ⟨⟨[], 0, []⟩, step⟩

end Code

section Purpose

def Seated (floor : Floor σ) (session : σ) : Prop :=
  ∃ talker ∈ floor, talker.session = session ∧ talker.seated = true

/-- Each session at most once, and no more seats taken than there are. -/
structure Fair (floor : Floor σ) : Prop where
  once : (floor.map Talker.session).Nodup
  few : seats floor ≤ LOUDEST

/-- All seats are taken, this talker is the quietest of the seated, and `session`, which has none,
is heard clearly louder: that seat changes hands and no other. -/
structure TakesOver (floor next : Floor σ) (talker : Talker σ) (session : σ) (now : ℕ) : Prop where
  full : seats floor = LOUDEST
  least : ∀ other ∈ floor, other.seated = true → talker.nowLoud now ≤ other.nowLoud now
  newcomer : ¬Seated floor session
  louder : ∃ heard ∈ next, heard.session = session ∧ talker.nowLoud now + MARGIN ≤ heard.loudness
  onlyOne : ∀ other, Seated next other ↔
    (Seated floor other ∧ other ≠ talker.session) ∨ other = session

/-- Why a talker that had a seat has none after a step. -/
def MayLose (room : Room σ) (next : Floor σ) (talker : Talker σ) : Act σ → Prop
  | .forget session => session = talker.session
  | .hear session _ _ now =>
    (∀ time, (talker.session, time) ∈ room.packets → time + HOLD ≤ now) ∨
      TakesOver room.floor next talker session now

/-- What one step does. -/
structure Follows (room : Room σ) (act : Act σ) (next : Room σ) : Prop where
  fair : Fair next.floor
  silence : ∀ session level bytes now, act = .hear session level bytes now → bytes ≤ SILENCE_MAX →
    next.floor = room.floor ∧ (hear room.floor session level bytes now).2 = false
  answers : ∀ session level bytes now, act = .hear session level bytes now → SILENCE_MAX < bytes →
    ((hear room.floor session level bytes now).2 = true ↔ Seated next.floor session)
  loses : ∀ talker ∈ room.floor, talker.seated = true → ¬Seated next.floor talker.session →
    MayLose room next.floor talker act

end Purpose

section First
variable {floor before after : Floor σ} {talker other : Talker σ} {session x : σ} {turn : Talker σ →
  Talker σ}

theorem onFirst_split (hbefore : ∀ other ∈ before, other.session ≠ session)
    (hsession : talker.session = session) :
    onFirst session turn (before ++ talker :: after) = before ++ turn talker :: after := by
  induction before with
  | nil => simp [onFirst, hsession]
  | cons first before ih =>
    have hfirst := hbefore first List.mem_cons_self
    have hrest := ih fun other hother => hbefore other (List.mem_cons_of_mem _ hother)
    rw [onFirst] at hrest ⊢
    rw [List.cons_append, List.replaceF_cons, if_neg hfirst]
    dsimp only
    rw [hrest, List.cons_append]

theorem mem_onFirst (honce : (floor.map Talker.session).Nodup) (hmem : talker ∈ floor) :
    other ∈ onFirst talker.session turn floor ↔
      other = turn talker ∨ (other ∈ floor ∧ other.session ≠ talker.session) := by
  obtain ⟨before, after, rfl, hbefore, hafter⟩ := around honce hmem
  rw [onFirst_split hbefore rfl]
  simp only [List.mem_append, List.mem_cons]
  constructor
  · rintro (hother | rfl | hother)
    · exact .inr ⟨.inl hother, hbefore other hother⟩
    · exact .inl rfl
    · exact .inr ⟨.inr (.inr hother), hafter other hother⟩
  · rintro (rfl | ⟨hother | rfl | hother, hne⟩)
    · exact .inr (.inl rfl)
    · exact .inl hother
    · exact absurd rfl hne
    · exact .inr (.inr hother)

theorem map_onFirst {β : Type*} (f : Talker σ → β) (hturn : ∀ talker, f (turn talker) = f talker) :
    (onFirst session turn floor).map f = floor.map f := by
  induction floor with
  | nil => rfl
  | cons first floor ih =>
    rw [onFirst, List.replaceF_cons]
    by_cases hfirst : first.session = session
    · rw [if_pos hfirst]
      dsimp only
      rw [List.map_cons, List.map_cons, hturn]
    · rw [if_neg hfirst]
      dsimp only
      rw [List.map_cons, List.map_cons]
      exact congrArg _ ih

end First

section Noted
variable {floor : Floor σ} {talker other : Talker σ} {session x : σ} {level : Option ℤ} {now : ℕ}

/-- The talkers still remembered when `session` is heard. -/
def remembered (floor : Floor σ) (session : σ) (now : ℕ) : Floor σ :=
  (floor.map (Talker.expired now)).filter (Talker.remembered session now)

omit [DecidableEq σ] in
theorem expired_session (talker : Talker σ) : (talker.expired now).session = talker.session := by
  rw [Talker.expired]
  split_ifs <;> rfl

omit [DecidableEq σ] in
/-- One that is seated still has sent something within `HOLD`, and is as it was. -/
theorem expired_seated (now : ℕ) (talker : Talker σ) :
    (talker.expired now).seated = true ↔ talker.seated = true ∧ now - talker.heard < HOLD := by
  rw [Talker.expired]
  split_ifs with hgone
  · refine iff_of_false id ?_
    rintro ⟨-, hlt⟩
    omega
  · rw [iff_self_and]
    intro hseated
    rw [not_and] at hgone
    exact not_le.mp (hgone hseated)

omit [DecidableEq σ] in
theorem expired_of_fresh (hfresh : now - talker.heard < HOLD) : talker.expired now = talker := by
  rw [Talker.expired, if_neg]
  rintro ⟨-, hle⟩
  omega

theorem remembered_once (honce : (floor.map Talker.session).Nodup) (session : σ) (now : ℕ) :
    ((remembered floor session now).map Talker.session).Nodup := by
  have hsame : (floor.map (Talker.expired now)).map Talker.session = floor.map Talker.session := by
    rw [List.map_map]
    exact List.map_congr_left fun talker _ => expired_session talker
  rw [← hsame] at honce
  exact honce.sublist (List.filter_sublist.map _)

theorem mem_remembered : other ∈ remembered floor session now ↔
    ∃ talker ∈ floor, talker.expired now = other ∧ other.remembered session now = true := by
  rw [remembered, List.mem_filter, List.mem_map]
  constructor
  · rintro ⟨⟨talker, htalker, hother⟩, hkept⟩
    exact ⟨talker, htalker, hother, hkept⟩
  · rintro ⟨talker, htalker, hother, hkept⟩
    exact ⟨⟨talker, htalker, hother⟩, hkept⟩

/-- Those with a seat keep it, all but those that have sent nothing for `HOLD`. -/
theorem mem_remembered_seated : (other ∈ remembered floor session now ∧ other.seated = true) ↔
    other ∈ floor ∧ other.seated = true ∧ now - other.heard < HOLD := by
  rw [mem_remembered]
  constructor
  · rintro ⟨⟨talker, htalker, rfl, -⟩, hseated⟩
    obtain ⟨hseated, hfresh⟩ := (expired_seated now talker).mp hseated
    rw [expired_of_fresh hfresh]
    exact ⟨htalker, hseated, hfresh⟩
  · rintro ⟨hother, hseated, hfresh⟩
    refine ⟨⟨other, hother, expired_of_fresh hfresh, ?_⟩, hseated⟩
    simp [Talker.remembered, hseated]

theorem noted_cases (floor : Floor σ) (session : σ) (level : Option ℤ) (now : ℕ) :
    ((∃ talker ∈ remembered floor session now, talker.session = session) ∧
      noted floor session level now = onFirst session
        (Talker.hears (level.elim UNKNOWN fun level => level) now) (remembered floor session now)) ∨
    ((∀ talker ∈ remembered floor session now, talker.session ≠ session) ∧
      noted floor session level now =
        remembered floor session now ++
          [⟨session, level.elim UNKNOWN fun level => level, now, false⟩]) := by
  dsimp only [noted]
  by_cases hheld :
    (remembered floor session now).any (fun talker => talker.session = session) = true
  · left
    refine ⟨?_, if_pos hheld⟩
    simpa using hheld
  · right
    refine ⟨?_, if_neg hheld⟩
    simpa using hheld

theorem noted_once (honce : (floor.map Talker.session).Nodup) (session : σ) (level : Option ℤ)
    (now : ℕ) :
    ((noted floor session level now).map Talker.session).Nodup := by
  have hremembered := remembered_once honce session now
  rcases noted_cases floor session level now with ⟨-, hnoted⟩ | ⟨hnew, hnoted⟩
  · rw [hnoted, map_onFirst Talker.session]
    · exact hremembered
    · intro talker
      rfl
  · rw [hnoted, List.map_append, List.nodup_append]
    refine ⟨hremembered, List.nodup_singleton _, ?_⟩
    intro held hheld new hnewMem hsame
    obtain ⟨talker, htalker, rfl⟩ := List.mem_map.mp hheld
    rw [List.map_singleton, List.mem_singleton] at hnewMem
    exact hnew talker htalker (hsame.trans hnewMem)

/-- Whoever is heard is remembered as heard now. -/
theorem noted_self (honce : (floor.map Talker.session).Nodup) (session : σ) (level : Option ℤ)
    (now : ℕ) :
    ∃ talker ∈ noted floor session level now, talker.session = session ∧ talker.heard = now := by
  rcases noted_cases floor session level now with ⟨⟨talker, htalker, rfl⟩, hnoted⟩ | ⟨-, hnoted⟩
  · refine ⟨talker.hears (level.elim UNKNOWN fun level => level) now, ?_, rfl, rfl⟩
    rw [hnoted, mem_onFirst (remembered_once honce talker.session now) htalker]
    exact .inl rfl
  · refine ⟨⟨session, level.elim UNKNOWN fun level => level, now, false⟩, ?_, rfl, rfl⟩
    rw [hnoted]
    exact List.mem_append_right _ List.mem_cons_self

/-- Hearing somebody changes nothing about anybody else but what time does. -/
theorem noted_other (honce : (floor.map Talker.session).Nodup) (hne : other.session ≠ session) :
    other ∈ noted floor session level now ↔ other ∈ remembered floor session now := by
  rcases noted_cases floor session level now with ⟨⟨talker, htalker, rfl⟩, hnoted⟩ | ⟨-, hnoted⟩
  · rw [hnoted, mem_onFirst (remembered_once honce talker.session now) htalker]
    constructor
    · rintro (rfl | ⟨hother, -⟩)
      · exact absurd rfl hne
      · exact hother
    · exact fun hother => .inr ⟨hother, hne⟩
  · rw [hnoted, List.mem_append, List.mem_singleton, or_iff_left]
    rintro rfl
    exact hne rfl

theorem seated_onFirst {turn : Talker σ → Talker σ}
    (hturn : ∀ talker, ((turn talker).session, (turn talker).seated) =
      (talker.session, talker.seated)) :
    Seated (onFirst session turn floor) x ↔ Seated floor x := by
  have hpairs : ∀ floor : Floor σ, Seated floor x ↔
      (x, true) ∈ floor.map fun t => (t.session, t.seated) := by
    intro floor
    simp [Seated]
  rw [hpairs, hpairs, map_onFirst (fun t => (t.session, t.seated)) hturn]

/-- A packet alone seats nobody, and unseats only those that have sent nothing for `HOLD`. -/
theorem noted_seated : Seated (noted floor session level now) x ↔
    ∃ talker ∈ floor, talker.session = x ∧ talker.seated = true ∧ now - talker.heard < HOLD := by
  have hremembered : Seated (remembered floor session now) x ↔
      ∃ talker ∈ floor, talker.session = x ∧ talker.seated = true ∧ now - talker.heard < HOLD := by
    constructor
    · rintro ⟨talker, htalker, hx, hseated⟩
      obtain ⟨hmem, hseated, hfresh⟩ := mem_remembered_seated.mp ⟨htalker, hseated⟩
      exact ⟨talker, hmem, hx, hseated, hfresh⟩
    · rintro ⟨talker, hmem, hx, hseated, hfresh⟩
      obtain ⟨hkept, hstill⟩ : talker ∈ remembered floor session now ∧ talker.seated = true :=
        mem_remembered_seated.mpr ⟨hmem, hseated, hfresh⟩
      exact ⟨talker, hkept, hx, hstill⟩
  rw [← hremembered]
  rcases noted_cases floor session level now with ⟨-, hnoted⟩ | ⟨-, hnoted⟩
  · rw [hnoted]
    exact seated_onFirst fun _ => rfl
  · rw [hnoted]
    constructor
    · rintro ⟨talker, htalker, hx, hseated⟩
      rcases List.mem_append.mp htalker with htalker | hnew
      · exact ⟨talker, htalker, hx, hseated⟩
      · rw [List.mem_singleton.mp hnew] at hseated
        cases hseated
    · rintro ⟨talker, htalker, hx, hseated⟩
      exact ⟨talker, List.mem_append_left _ htalker, hx, hseated⟩

/-- The seats still taken are those of talkers that have sent something within `HOLD`. -/
theorem noted_seats : seats (noted floor session level now) =
    floor.countP fun talker => talker.seated && decide (now - talker.heard < HOLD) := by
  have hremembered : seats (remembered floor session now) =
      floor.countP fun talker => talker.seated && decide (now - talker.heard < HOLD) := by
    rw [seats, remembered, List.countP_filter, List.countP_map]
    apply List.countP_congr
    intro talker _
    have hseated := expired_seated now talker
    simp only [Function.comp_apply, Bool.and_eq_true, decide_eq_true_eq, hseated]
    rw [and_iff_left_iff_imp]
    rintro ⟨hs, hfresh⟩
    simp [Talker.remembered, expired_of_fresh hfresh, hs]
  rcases noted_cases floor session level now with ⟨-, hnoted⟩ | ⟨-, hnoted⟩
  · have hsame : ∀ floor : Floor σ, seats floor = (floor.map Talker.seated).countP id := by
      intro floor
      rw [List.countP_map]
      rfl
    rw [hnoted, hsame, map_onFirst Talker.seated, ← hsame, hremembered]
    intro talker
    rfl
  · rw [hnoted, seats, List.countP_append, ← seats, hremembered]
    rfl

/-- With every seat still taken, nobody's has run out. -/
theorem all_fresh (hfew : seats floor ≤ LOUDEST)
    (hfull : LOUDEST ≤ seats (noted floor session level now)) :
    seats floor = LOUDEST ∧ ∀ talker ∈ floor, talker.seated = true → now - talker.heard < HOLD := by
  have hsplit := List.countP_eq_countP_filter_add floor Talker.seated fun talker =>
    decide (now - talker.heard < HOLD)
  rw [List.countP_filter] at hsplit
  rw [noted_seats] at hfull
  have htotal : seats floor = LOUDEST := by
    rw [seats] at hfew ⊢
    omega
  refine ⟨htotal, ?_⟩
  intro talker htalker hseated
  by_contra hgone
  rw [seats] at htotal
  have hnone : (floor.filter fun talker => !decide (now - talker.heard < HOLD)).countP
      Talker.seated = 0 := by omega
  rw [List.countP_eq_zero] at hnone
  exact hnone talker (List.mem_filter.mpr ⟨htalker, by simpa using hgone⟩) hseated

end Noted

section Seats
variable {floor : Floor σ} {talker other : Talker σ} {session x : σ} {turn : Talker σ → Talker σ}

theorem seats_onFirst (honce : (floor.map Talker.session).Nodup) (hmem : talker ∈ floor) :
    seats (onFirst talker.session turn floor) + (if talker.seated then 1 else 0) =
      seats floor + if (turn talker).seated then 1 else 0 := by
  obtain ⟨before, after, rfl, hbefore, -⟩ := around honce hmem
  rw [onFirst_split hbefore rfl, seats, seats, List.countP_append, List.countP_append,
    List.countP_cons, List.countP_cons]
  omega

theorem seats_seat (honce : (floor.map Talker.session).Nodup) (hmem : talker ∈ floor) :
    seats (seat talker.session floor) + (if talker.seated then 1 else 0) = seats floor + 1 :=
  seats_onFirst honce hmem

theorem seats_unseat (honce : (floor.map Talker.session).Nodup) (hmem : talker ∈ floor) :
    seats (unseat talker.session floor) + (if talker.seated then 1 else 0) = seats floor :=
  seats_onFirst honce hmem

theorem onFirst_once (hturn : ∀ talker, (turn talker).session = talker.session)
    (honce : (floor.map Talker.session).Nodup) :
    ((onFirst session turn floor).map Talker.session).Nodup := by
  rw [map_onFirst Talker.session hturn]
  exact honce

theorem seated_seat (honce : (floor.map Talker.session).Nodup) (hmem : talker ∈ floor) :
    Seated (seat talker.session floor) x ↔ Seated floor x ∨ x = talker.session := by
  constructor
  · rintro ⟨other, hother, rfl, hseated⟩
    rcases (mem_onFirst honce hmem).mp hother with rfl | ⟨hother, -⟩
    · exact .inr rfl
    · exact .inl ⟨other, hother, rfl, hseated⟩
  · rintro (⟨other, hother, rfl, hseated⟩ | rfl)
    · by_cases hsame : other.session = talker.session
      · exact ⟨{ talker with seated := true }, (mem_onFirst honce hmem).mpr (.inl rfl), hsame.symm,
          rfl⟩
      · exact ⟨other, (mem_onFirst honce hmem).mpr (.inr ⟨hother, hsame⟩), rfl, hseated⟩
    · exact ⟨{ talker with seated := true }, (mem_onFirst honce hmem).mpr (.inl rfl), rfl, rfl⟩

theorem seated_unseat (honce : (floor.map Talker.session).Nodup) (hmem : talker ∈ floor) :
    Seated (unseat talker.session floor) x ↔ Seated floor x ∧ x ≠ talker.session := by
  constructor
  · rintro ⟨other, hother, rfl, hseated⟩
    rcases (mem_onFirst honce hmem).mp hother with rfl | ⟨hother, hne⟩
    · cases hseated
    · exact ⟨⟨other, hother, rfl, hseated⟩, hne⟩
  · rintro ⟨⟨other, hother, rfl, hseated⟩, hne⟩
    exact ⟨other, (mem_onFirst honce hmem).mpr (.inr ⟨hother, hne⟩), rfl, hseated⟩

end Seats

section Hear
variable {floor : Floor σ} {session : σ} {level : Option ℤ} {bytes now : ℕ}

/-- What a packet that is more than silence comes to. -/
inductive Heard (floor : Floor σ) (session : σ) (now : ℕ) : Floor σ × Bool → Prop
  | keeps (hseated : Seated floor session) : Heard floor session now (floor, true)
  | sits (hnot : ¬Seated floor session) (hfree : seats floor < LOUDEST) :
    Heard floor session now (seat session floor, true)
  | takes (hnot : ¬Seated floor session) (hfull : LOUDEST ≤ seats floor) (least newcomer : Talker σ)
    (hleast : least ∈ floor) (hseated : least.seated = true)
    (hquietest : ∀ other ∈ floor, other.seated = true → least.nowLoud now ≤ other.nowLoud now)
    (hnewcomer : newcomer ∈ floor) (hsession : newcomer.session = session)
    (hlouder : least.nowLoud now + MARGIN ≤ newcomer.loudness) :
    Heard floor session now (seat session (unseat least.session floor), true)
  | waits (hnot : ¬Seated floor session) : Heard floor session now (floor, false)

theorem hear_heard (honce : (floor.map Talker.session).Nodup) (session : σ) (level : Option ℤ)
    (now : ℕ)
    (hloud : SILENCE_MAX < bytes) :
    Heard (noted floor session level now) session now (hear floor session level bytes now) := by
  obtain ⟨talker, htalker, rfl, -⟩ := noted_self honce session level now
  have hnoted := noted_once honce talker.session level now
  have hfound := find?_key hnoted htalker
  have hseatedIff : Seated (noted floor talker.session level now) talker.session ↔
      talker.seated = true := by
    constructor
    · rintro ⟨other, hother, hsame, hseated⟩
      rw [← eq_of_key hnoted htalker hother hsame]
      exact hseated
    · exact fun hseated => ⟨talker, htalker, rfl, hseated⟩
  rw [hear, if_neg (not_le.mpr hloud)]
  dsimp only
  rw [hfound]
  dsimp only
  by_cases hseated : talker.seated = true
  · rw [if_pos hseated]
    exact .keeps (hseatedIff.mpr hseated)
  have hnot : ¬Seated (noted floor talker.session level now) talker.session :=
    fun h => hseated (hseatedIff.mp h)
  rw [if_neg hseated]
  by_cases hfree : seats (noted floor talker.session level now) < LOUDEST
  · rw [if_pos hfree]
    exact .sits hnot hfree
  rw [if_neg hfree]
  cases hquietest : quietest (noted floor talker.session level now) now with
  | none => exact .waits hnot
  | some least =>
    dsimp only
    obtain ⟨hleast, hleastSeated⟩ := List.mem_filter.mp (List.argmin_mem hquietest)
    by_cases hlouder : least.nowLoud now + MARGIN ≤ talker.loudness
    · rw [if_pos hlouder]
      apply Heard.takes hnot
        (not_lt.mp hfree) least talker hleast hleastSeated _ htalker rfl hlouder
      intro other hother hotherSeated
      exact List.le_of_mem_argmin (List.mem_filter.mpr ⟨hother, hotherSeated⟩) hquietest
    · rw [if_neg hlouder]
      exact .waits hnot

variable {result : Floor σ × Bool} {x : σ}

/-- Which seats are taken after a takeover: the newcomer's for the quietest one's. -/
theorem seated_takes {least newcomer : Talker σ} (honce : (floor.map Talker.session).Nodup)
    (hleast : least ∈ floor)
    (hnewcomer : newcomer ∈ floor) (hapart : newcomer.session ≠ least.session) :
    Seated (seat newcomer.session (unseat least.session floor)) x ↔
      (Seated floor x ∧ x ≠ least.session) ∨ x = newcomer.session := by
  have hunseat : ((unseat least.session floor).map Talker.session).Nodup :=
    onFirst_once (fun _ => rfl) honce
  have hthere : newcomer ∈ unseat least.session floor :=
    (mem_onFirst honce hleast).mpr (.inr ⟨hnewcomer, hapart⟩)
  rw [seated_seat hunseat hthere, seated_unseat honce hleast]

omit [DecidableEq σ] in
/-- A newcomer that takes a seat has none yet, so it isn't the one that loses it. -/
theorem newcomer_apart {least newcomer : Talker σ} (hnot : ¬Seated floor newcomer.session)
    (hleast : least ∈ floor)
    (hseated : least.seated = true) : newcomer.session ≠ least.session := by
  intro hsame
  exact hnot ⟨least, hleast, hsame.symm, hseated⟩

theorem heard_fair (hfair : Fair floor) (hthere : ∃ talker ∈ floor, talker.session = session)
    (h : Heard floor session now result) : Fair result.1 := by
  obtain ⟨talker, htalker, rfl⟩ := hthere
  cases h with
  | keeps hseated => exact hfair
  | waits hnot => exact hfair
  | sits hnot hfree =>
    refine ⟨onFirst_once (fun _ => rfl) hfair.once, ?_⟩
    have hcount := seats_seat hfair.once htalker
    dsimp only
    omega
  | takes hnot hfull least newcomer hleast hseated hquietest hnewcomer hsession hlouder =>
    rw [← hsession] at hnot ⊢
    have hapart := newcomer_apart hnot hleast hseated
    have hunseat : ((unseat least.session floor).map Talker.session).Nodup :=
      onFirst_once (fun _ => rfl) hfair.once
    have hnewThere : newcomer ∈ unseat least.session floor :=
      (mem_onFirst hfair.once hleast).mpr (.inr ⟨hnewcomer, hapart⟩)
    refine ⟨onFirst_once (fun _ => rfl) hunseat, ?_⟩
    have hgone := seats_unseat hfair.once hleast
    have hcome := seats_seat hunseat hnewThere
    have hfew := hfair.few
    rw [if_pos hseated] at hgone
    dsimp only
    omega

/-- The answer is whether it is seated when it comes. -/
theorem heard_answers (honce : (floor.map Talker.session).Nodup)
    (hthere : ∃ talker ∈ floor, talker.session = session)
    (h : Heard floor session now result) : result.2 = true ↔ Seated result.1 session := by
  obtain ⟨talker, htalker, rfl⟩ := hthere
  cases h with
  | keeps hseated => exact iff_of_true rfl hseated
  | waits hnot => exact iff_of_false Bool.false_ne_true hnot
  | sits hnot hfree => exact iff_of_true rfl ((seated_seat honce htalker).mpr (.inr rfl))
  | takes hnot hfull least newcomer hleast hseated hquietest hnewcomer hsession hlouder =>
    rw [← hsession] at hnot ⊢
    exact iff_of_true rfl
      ((seated_takes honce hleast hnewcomer (newcomer_apart hnot hleast hseated)).mpr (.inr rfl))

end Hear

section Runs
variable {room next : Room σ} {act : Act σ} {floor : Floor σ} {talker : Talker σ} {session : σ}
  {level : Option ℤ}
  {bytes now : ℕ}

/-- A room as it is in a run: whoever is remembered has sent nothing since it was last heard. -/
structure Sound (room : Room σ) : Prop where
  fair : Fair room.floor
  last : ∀ talker ∈ room.floor, ∀ time, (talker.session, time) ∈ room.packets → time ≤ talker.heard
  past : ∀ packet ∈ room.packets, packet.2 ≤ room.time

theorem noted_fair (hfair : Fair floor) (session : σ) (level : Option ℤ) (now : ℕ) :
    Fair (noted floor session level now) := by
  refine ⟨noted_once hfair.once session level now, ?_⟩
  rw [noted_seats]
  refine le_trans (List.countP_mono_left ?_) hfair.few
  intro talker _ hstill
  exact (Bool.and_eq_true_iff.mp hstill).1

theorem hear_there (honce : (floor.map Talker.session).Nodup) (session : σ) (level : Option ℤ)
    (now : ℕ) :
    ∃ talker ∈ noted floor session level now, talker.session = session := by
  obtain ⟨talker, htalker, hsession, -⟩ := noted_self honce session level now
  exact ⟨talker, htalker, hsession⟩

/-- Everybody remembered after a packet is remembered as before it, but for who sent it. -/
theorem noted_times (honce : (floor.map Talker.session).Nodup)
    (hmem : talker ∈ noted floor session level now) :
    (talker.session = session ∧ talker.heard = now) ∨
      (talker.session ≠ session ∧ ∃ held ∈ floor, held.session = talker.session ∧
        held.heard = talker.heard) := by
  by_cases hself : talker.session = session
  · obtain ⟨self, hselfMem, hsession, hheard⟩ := noted_self honce session level now
    have hsame :=
      eq_of_key (noted_once honce session level now) hselfMem hmem (hself.trans hsession.symm)
    exact .inl ⟨hself, hsame ▸ hheard⟩
  · right
    obtain ⟨held, hheld, rfl, -⟩ := mem_remembered.mp ((noted_other honce hself).mp hmem)
    refine ⟨hself, held, hheld, (expired_session held).symm, ?_⟩
    rw [Talker.expired]
    split_ifs <;> rfl

theorem onFirst_times {turn : Talker σ → Talker σ}
    (hturn : ∀ t, ((turn t).session, (turn t).heard) = (t.session, t.heard))
    (hmem : talker ∈ onFirst session turn floor) :
    ∃ held ∈ floor, held.session = talker.session ∧ held.heard = talker.heard := by
  have hpairs : (onFirst session turn floor).map (fun t => (t.session, t.heard)) =
      floor.map fun t => (t.session, t.heard) := map_onFirst _ hturn
  have hpair : (talker.session, talker.heard) ∈ floor.map fun t => (t.session, t.heard) := by
    rw [← hpairs]
    exact List.mem_map.mpr ⟨talker, hmem, rfl⟩
  obtain ⟨held, hheld, hsame⟩ := List.mem_map.mp hpair
  exact ⟨held, hheld, (Prod.mk.inj hsame).1, (Prod.mk.inj hsame).2⟩

theorem seat_times (hmem : talker ∈ seat session floor) :
    ∃ held ∈ floor, held.session = talker.session ∧ held.heard = talker.heard := by
  apply onFirst_times _ hmem
  intro t
  rfl

theorem unseat_times (hmem : talker ∈ unseat session floor) :
    ∃ held ∈ floor, held.session = talker.session ∧ held.heard = talker.heard := by
  apply onFirst_times _ hmem
  intro t
  rfl

theorem heard_times {result : Floor σ × Bool} (h : Heard floor session now result)
    (hmem : talker ∈ result.1) :
    ∃ held ∈ floor, held.session = talker.session ∧ held.heard = talker.heard := by
  cases h with
  | keeps hseated => exact ⟨talker, hmem, rfl, rfl⟩
  | waits hnot => exact ⟨talker, hmem, rfl, rfl⟩
  | sits hnot hfree => exact seat_times hmem
  | takes hnot hfull least newcomer hleast hseated hquietest hnewcomer hsession hlouder =>
    obtain ⟨between, hbetween, hsession, hheard⟩ := seat_times hmem
    obtain ⟨held, hheld, hsession', hheard'⟩ := unseat_times hbetween
    exact ⟨held, hheld, hsession'.trans hsession, hheard'.trans hheard⟩

/-- Whoever is remembered after a packet that is more than silence was before, or sent it. -/
theorem hear_from (honce : (floor.map Talker.session).Nodup)
    (hmem : talker ∈ (hear floor session level bytes now).1) :
    (SILENCE_MAX < bytes ∧ talker.session = session) ∨
      ∃ held ∈ floor, held.session = talker.session := by
  by_cases hsilent : bytes ≤ SILENCE_MAX
  · rw [hear, if_pos hsilent] at hmem
    exact .inr ⟨talker, hmem, rfl⟩
  have hloud := not_le.mp hsilent
  obtain ⟨held, hheld, hsession, -⟩ := heard_times (hear_heard honce session level now hloud) hmem
  rcases noted_times honce hheld with ⟨hself, -⟩ | ⟨-, before, hbefore, hsame, -⟩
  · exact .inl ⟨hloud, hsession.symm.trans hself⟩
  · exact .inr ⟨before, hbefore, hsame.trans hsession⟩

omit [DecidableEq σ] in
/-- Somebody heard just now. -/
def HeardAt (floor : Floor σ) (x : σ) (now : ℕ) : Prop :=
  ∃ talker ∈ floor, talker.session = x ∧ talker.heard = now

theorem onFirst_heardAt {turn : Talker σ → Talker σ} {x : σ}
    (hturn : ∀ t, ((turn t).session, (turn t).heard) = (t.session, t.heard)) :
    HeardAt (onFirst session turn floor) x now ↔ HeardAt floor x now := by
  have hpairs : ∀ floor : Floor σ, HeardAt floor x now ↔
      (x, now) ∈ floor.map fun t => (t.session, t.heard) := by
    intro floor
    simp [HeardAt]
  rw [hpairs, hpairs, map_onFirst (fun t => (t.session, t.heard)) hturn]

theorem heard_heardAt {result : Floor σ × Bool} {x : σ} (h : Heard floor session now result) :
    HeardAt result.1 x now ↔ HeardAt floor x now := by
  have hseat : ∀ floor : Floor σ, HeardAt (seat session floor) x now ↔ HeardAt floor x now :=
    fun floor => onFirst_heardAt fun _ => rfl
  cases h with
  | keeps hseated => exact Iff.rfl
  | waits hnot => exact Iff.rfl
  | sits hnot hfree => exact hseat floor
  | takes hnot hfull least newcomer hleast hseated hquietest hnewcomer hsession hlouder =>
    have hunseat : HeardAt (unseat least.session floor) x now ↔ HeardAt floor x now :=
      onFirst_heardAt fun _ => rfl
    exact (hseat _).trans hunseat

/-- Who sends more than silence is remembered. -/
theorem hear_self (honce : (floor.map Talker.session).Nodup) (session : σ) (level : Option ℤ)
    (now : ℕ)
    (hloud : SILENCE_MAX < bytes) : HeardAt (hear floor session level bytes now).1 session now :=
  (heard_heardAt (hear_heard honce session level now hloud)).mpr
    (noted_self honce session level now)

/-- Who was heard just now still is after somebody else is. -/
theorem hear_stays {x : σ} (honce : (floor.map Talker.session).Nodup) (session : σ)
    (level : Option ℤ) (bytes : ℕ)
    (hmem : HeardAt floor x now) : HeardAt (hear floor session level bytes now).1 x now := by
  by_cases hsilent : bytes ≤ SILENCE_MAX
  · rw [hear, if_pos hsilent]
    exact hmem
  rw [heard_heardAt (hear_heard honce session level now (not_le.mp hsilent))]
  by_cases hself : x = session
  · rw [hself]
    exact noted_self honce session level now
  obtain ⟨talker, htalker, rfl, rfl⟩ := hmem
  have hpos : 0 < HOLD := by decide
  have hfresh : talker.heard - talker.heard < HOLD := by omega
  refine ⟨talker, (noted_other honce hself).mpr ?_, rfl, rfl⟩
  refine mem_remembered.mpr ⟨talker, htalker, expired_of_fresh hfresh, ?_⟩
  simp [Talker.remembered, hpos]

theorem hear_fair (hfair : Fair floor) (session : σ) (level : Option ℤ) (bytes now : ℕ) :
    Fair (hear floor session level bytes now).1 := by
  by_cases hsilent : bytes ≤ SILENCE_MAX
  · rw [hear, if_pos hsilent]
    exact hfair
  · exact heard_fair (noted_fair hfair session level now) (hear_there hfair.once session level now)
      (hear_heard hfair.once session level now (not_le.mp hsilent))

theorem forget_fair (hfair : Fair floor) (session : σ) : Fair (forget floor session) := by
  refine ⟨hfair.once.sublist (List.filter_sublist.map _), ?_⟩
  exact (List.filter_sublist.countP_le).trans hfair.few

theorem Sound.step (h : Sound room) (hstep : step room act = some next) : Sound next := by
  cases act with
  | forget session =>
    obtain rfl := Option.some.inj hstep
    refine ⟨forget_fair h.fair session, ?_, h.past⟩
    intro talker htalker
    exact h.last talker (List.mem_filter.mp htalker).1
  | hear session level bytes now =>
    obtain ⟨hnow, hnext⟩ := Option.ite_none_right_eq_some.mp hstep
    obtain rfl := Option.some.inj hnext
    by_cases hsilent : bytes ≤ SILENCE_MAX
    · simp only [hear, if_pos hsilent]
      exact ⟨h.fair, h.last, fun packet hpacket => (h.past packet hpacket).trans hnow⟩
    · simp only [if_neg hsilent]
      refine ⟨hear_fair h.fair session level bytes now, ?_, ?_⟩
      · intro talker htalker time hpacket
        have hheard := hear_heard h.fair.once session level now (not_le.mp hsilent)
        obtain ⟨held, hheld, hsession, htime⟩ := heard_times hheard htalker
        rcases noted_times h.fair.once hheld with
          ⟨hself, hatNow⟩ | ⟨hother, before, hbefore, hsame, hkept⟩
        · rw [← htime, hatNow]
          rcases List.mem_cons.mp hpacket with hnew | hold
          · exact (Prod.mk.inj hnew).2.le
          · exact (h.past _ hold).trans hnow
        · rcases List.mem_cons.mp hpacket with hnew | hold
          · exact absurd (hsession.trans (Prod.mk.inj hnew).1) hother
          · rw [← htime, ← hkept]
            apply h.last before hbefore
            rw [hsame, hsession]
            exact hold
      · intro packet hpacket
        rcases List.mem_cons.mp hpacket with rfl | hpacket
        · exact le_rfl
        · exact (h.past packet hpacket).trans hnow

/-- Where a seat that has not run out is lost, somebody clearly louder took it. -/
theorem takes_over (hfair : Fair floor) (hmem : talker ∈ floor) (hseated : talker.seated = true)
    (hfresh : now - talker.heard < HOLD) {result : Floor σ × Bool}
    (h : Heard (noted floor session level now) session now result)
    (hlost : ¬Seated result.1 talker.session) :
    TakesOver floor result.1 talker session now := by
  have hkept : Seated (noted floor session level now) talker.session :=
    noted_seated.mpr ⟨talker, hmem, rfl, hseated, hfresh⟩
  have honce := noted_once hfair.once session level now
  cases h with
  | keeps hthere => exact absurd hkept hlost
  | waits hnot => exact absurd hkept hlost
  | sits hnot hfree =>
    obtain ⟨self, hself, rfl⟩ := hear_there hfair.once session level now
    exact absurd ((seated_seat honce hself).mpr (.inl hkept)) hlost
  | takes hnot hfull least newcomer hleast hleastSeated hquietest hnewcomer hsession hlouder =>
    subst hsession
    have hapart := newcomer_apart hnot hleast hleastSeated
    obtain ⟨htotal, hall⟩ := all_fresh hfair.few hfull
    have hstill : ∀ other, Seated (noted floor newcomer.session level now) other ↔
        Seated floor other := by
      intro other
      rw [noted_seated]
      constructor
      · rintro ⟨held, hheld, hsame, hheldSeated, -⟩
        exact ⟨held, hheld, hsame, hheldSeated⟩
      · rintro ⟨held, hheld, hsame, hheldSeated⟩
        exact ⟨held, hheld, hsame, hheldSeated, hall held hheld hheldSeated⟩
    -- A seated talker of the floor is as it was when the newcomer is noted, so the quietest is
    -- found among the same.
    have hsame : ∀ other ∈ floor, other.seated = true →
        other ∈ noted floor newcomer.session level now := by
      intro other hother hotherSeated
      have hother' : other.session ≠ newcomer.session := by
        intro hsame
        exact hnot ((hstill _).mpr ⟨other, hother, hsame, hotherSeated⟩)
      rw [noted_other hfair.once hother']
      exact (mem_remembered_seated.mpr ⟨hother, hotherSeated, hall other hother hotherSeated⟩).1
    have hquiet : least = talker := by
      by_contra hne
      apply hlost
      rw [seated_takes honce hleast hnewcomer hapart]
      refine .inl ⟨hkept, fun hsession => hne ?_⟩
      exact eq_of_key honce (hsame talker hmem hseated) hleast hsession.symm
    subst hquiet
    refine ⟨htotal, ?_, ?_, ?_, ?_⟩
    · exact fun other hother hotherSeated =>
        hquietest other (hsame other hother hotherSeated) hotherSeated
    · exact fun hthere => hnot ((hstill _).mpr hthere)
    · have hunseat : ((unseat least.session (noted floor newcomer.session level now)).map
          Talker.session).Nodup :=
        onFirst_once (fun _ => rfl) honce
      have hthere : newcomer ∈ unseat least.session (noted floor newcomer.session level now) :=
        (mem_onFirst honce hleast).mpr (.inr ⟨hnewcomer, hapart⟩)
      exact ⟨{ newcomer with seated := true }, (mem_onFirst hunseat hthere).mpr (.inl rfl), rfl,
        hlouder⟩
    · intro other
      rw [seated_takes honce hleast hnewcomer hapart, hstill]

theorem Sound.loses (h : Sound room) (hstep : Floors.step room act = some next)
    (hmem : talker ∈ room.floor)
    (hseated : talker.seated = true) (hlost : ¬Seated next.floor talker.session) :
    MayLose room next.floor talker act := by
  cases act with
  | forget session =>
    obtain rfl := Option.some.inj hstep
    change session = talker.session
    by_contra hother
    refine hlost ⟨talker, List.mem_filter.mpr ⟨hmem, ?_⟩, rfl, hseated⟩
    simpa using Ne.symm hother
  | hear session level bytes now =>
    obtain ⟨-, hnext⟩ := Option.ite_none_right_eq_some.mp hstep
    obtain rfl := Option.some.inj hnext
    by_cases hsilent : bytes ≤ SILENCE_MAX
    · simp only [hear, if_pos hsilent] at hlost
      exact absurd ⟨talker, hmem, rfl, hseated⟩ hlost
    by_cases hfresh : now - talker.heard < HOLD
    · right
      exact takes_over h.fair hmem hseated hfresh
        (hear_heard h.fair.once session level now (not_le.mp hsilent)) hlost
    · left
      intro time hpacket
      have hlast := h.last talker hmem time hpacket
      have hpos : 0 < HOLD := by decide
      omega

theorem Sound.follows (h : Sound room) (hstep : Floors.step room act = some next) :
    Follows room act next := by
  refine ⟨(h.step hstep).fair, ?_, ?_,
    fun talker hmem hseated hlost => h.loses hstep hmem hseated hlost⟩
  · rintro session level bytes now rfl hsilent
    obtain ⟨-, hnext⟩ := Option.ite_none_right_eq_some.mp hstep
    obtain rfl := Option.some.inj hnext
    simp only [hear, if_pos hsilent, and_self]
  · rintro session level bytes now rfl hloud
    obtain ⟨-, hnext⟩ := Option.ite_none_right_eq_some.mp hstep
    obtain rfl := Option.some.inj hnext
    exact heard_answers (noted_once h.fair.once session level now)
      (hear_there h.fair.once session level now)
      (hear_heard h.fair.once session level now hloud)

theorem sound_start : Sound (machine : Machine (Room σ) (Act σ)).start :=
  ⟨⟨List.nodup_nil, Nat.zero_le _⟩, fun _ hnone => absurd hnone List.not_mem_nil,
    fun _ hnone => absurd hnone List.not_mem_nil⟩

end Runs

/-- At any time of any run each session is there once and no more than the seats are taken; and
every step then keeps to the law: silence changes nothing and isn't passed on, anything else is
passed on just when its session is seated, and a seat is lost only by leaving, by sending nothing,
or to somebody clearly louder than the quietest. -/
theorem floor_law {room : Room σ} (hrun : machine.Reachable room) :
    Fair room.floor ∧ ∀ act next, step room act = some next → Follows room act next := by
  have hsound : Sound room := machine.invariant sound_start (fun _ _ _ h hstep => h.step hstep) hrun
  exact ⟨hsound.fair, fun act next hstep => hsound.follows hstep⟩

instance (floor : Floor σ) (session : σ) : Decidable (Seated floor session) :=
  inferInstanceAs (Decidable (∃ talker ∈ floor, talker.session = session ∧ talker.seated = true))

/-- Six voices, of which the first is the quietest. -/
def talking : List (Act String) :=
  [.hear "a" (some (-40)) 160 0, .hear "b" (some (-30)) 160 10, .hear "c" (some (-30)) 160 20,
    .hear "d" (some (-30)) 160 30, .hear "e" (some (-30)) 160 40, .hear "f" (some (-30)) 160 50]

/-- A seventh, clearly louder, takes the seat of the quietest. -/
theorem floor_law_talking :
    ∃ full next, machine.run talking = some full ∧ seats full.floor = LOUDEST ∧
      step full (.hear "g" (some (-20)) 160 60) = some next ∧ Seated next.floor "g" ∧
      ¬Seated next.floor "a" ∧
      Fair full.floor ∧ Follows full (.hear "g" (some (-20)) 160 60) next := by
  obtain ⟨full, hfull⟩ : ∃ full, machine.run talking = some full := ⟨_, rfl⟩
  obtain ⟨hfair, hfollows⟩ := floor_law ⟨talking, hfull⟩
  obtain rfl := Option.some.inj hfull
  exact ⟨_, _, rfl, by decide +kernel, rfl, by decide +kernel, by decide +kernel, hfair,
    hfollows _ _ rfl⟩

/-- One voice, in the first seat. -/
def speaking : Room String := ⟨[⟨"a", -30, 0, true⟩], 0, [("a", 0)]⟩

/-- Its silence isn't passed on, and it is seated all the same. -/
theorem silence_from_the_seated :
    ¬((hear speaking.floor "a" none 3 1).2 = true ↔
      Seated (hear speaking.floor "a" none 3 1).1 "a") := by
  intro hanswers
  have hseated : Seated (hear speaking.floor "a" none 3 1).1 "a" :=
    ⟨⟨"a", -30, 0, true⟩, List.mem_cons_self, rfl, rfl⟩
  exact Bool.false_ne_true (hanswers.mpr hseated)

end Linger.Floors
