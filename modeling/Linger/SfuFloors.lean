import Linger.FiniteMap
import Linger.Floor
import Linger.SfuHub

/-! The forwarding loop turn by turn, and whom the rooms' floors remember at the end of each. -/
namespace Linger.Sfu
open FiniteMap StepMachine
open Floors (Floor Fair HeardAt SILENCE_MAX)

section Code

/-- One packet of voice that came in on a client's microphone line. -/
structure Packet where
  level : Option ℤ
  bytes : ℕ

/-- What polling a connection gives: the voice that came in, and whether it has ended by the end of
it. -/
structure Polled where
  voices : List Packet
  ended : Bool

structure Forwarding where
  hub : Hub
  floors : FMap RoomId (Floor SessionId)

namespace Forwarding

def remove (st : Forwarding) (session : SessionId) (draw : Draws) : Forwarding :=
  match st.hub.clients.find? fun c => c.session = session with
  | none => st
  | some gone =>
    { hub := st.hub.remove session draw
      floors :=
        match st.floors[gone.room]? with
        | none => st.floors
        | some floor =>
          let floor := Floors.forget floor session
          if floor.isEmpty then st.floors.erase gone.room else st.floors.insert gone.room floor }

def join (st : Forwarding) (session : SessionId) (room : RoomId) (going coming : Draws) :
    Forwarding :=
  let left := st.remove session going
  if left.hub.usable then { left with hub := left.hub.enter session room coming } else left

def command (st : Forwarding) (act : Act) : Forwarding :=
  match act.command with
  | .join session room => st.join session room act.going act.coming
  | .answer session answer => { st with hub := st.hub.answer session answer act.coming }
  | .leave session => st.remove session act.going

/-- Drop connections that ended on their own. -/
def sweep (st : Forwarding) (ended : SessionId → Bool) (draw : SessionId → Draws) : Forwarding :=
  let dead := (st.hub.clients.filter fun c => ended c.session).map Client.session
  dead.foldl (fun st session => st.remove session (draw session)) st

/-- Whether a voice is passed on, which only its room's floor remembers. -/
def pass (now : ℕ) (st : Forwarding) (heard : SessionId × RoomId × Packet) : Forwarding :=
  let (origin, room, packet) := heard
  let floor := st.floors[room]?.getD []
  { st with
    floors := st.floors.insert room (Floors.hear floor origin packet.level packet.bytes now).1 }

/-- What a turn meets: the commands that were waiting, what polling each client gives, what is drawn
as those that ended are dropped, and the time the voices are passed on at. -/
structure Turn where
  commands : List Act
  polled : SessionId → Polled
  draw : SessionId → Draws
  now : ℕ

/-- The voice that comes in as the clients are polled, in their order. -/
def heard (st : Forwarding) (polled : SessionId → Polled) : List (SessionId × RoomId × Packet) :=
  st.hub.clients.flatMap fun c => (polled c.session).voices.map fun packet =>
    (c.session, c.room, packet)

def turn (st : Forwarding) (t : Turn) : Forwarding :=
  let commanded := t.commands.foldl command st
  let swept := commanded.sweep (fun session => (t.polled session).ended) t.draw
  (commanded.heard t.polled).foldl (pass t.now) swept

def run (usable : Bool) : Machine Forwarding Turn :=
  ⟨⟨⟨[], usable, []⟩, ∅⟩, fun st t => some (st.turn t)⟩

end Forwarding

end Code

section Purpose

/-- Each room with a floor has somebody in it, and whoever a floor remembers is in its room. -/
structure Remembers (st : Forwarding) : Prop where
  someone : ∀ room floor, st.floors[room]? = some floor → ∃ session, (session, room) ∈ st.hub.roster
  there : ∀ room floor, st.floors[room]? = some floor → ∀ talker ∈ floor,
    (talker.session, room) ∈ st.hub.roster

/-- No connection ends in the very turn that its voice came in, unless all that came was silence and
somebody else's connection in its room goes on. -/
def EndsUnheard (st : Forwarding) (t : Forwarding.Turn) : Prop :=
  ∀ heard ∈ (t.commands.foldl Forwarding.command st).heard t.polled,
    (t.polled heard.1).ended = true → heard.2.2.bytes ≤ SILENCE_MAX ∧
      ∃ c ∈ (t.commands.foldl Forwarding.command st).hub.clients,
        c.room = heard.2.1 ∧ (t.polled c.session).ended = false

end Purpose

namespace Forwarding
variable {st : Forwarding} {session : SessionId} {room : RoomId} {draw going coming : Draws}
  {act : Act}

def AllFair (floors : FMap RoomId (Floor SessionId)) : Prop :=
  ∀ (room : RoomId) (floor : Floor SessionId), floors[room]? = some floor → Fair floor

/-- The loop's state as every step keeps it. -/
structure Sound (st : Forwarding) : Prop where
  seated : Seated st.hub
  fair : AllFair st.floors
  remembers : Remembers st

section Removing

theorem remove_hub (st : Forwarding) (session : SessionId) (draw : Draws) :
    (st.remove session draw).hub = st.hub.remove session draw := by
  rw [remove]
  cases hgone : st.hub.clients.find? fun c => c.session = session with
  | none => exact (Hub.remove_none hgone).symm
  | some gone => rfl

/-- A floor after somebody is removed is as it was before, or without them and not empty. -/
theorem remove_floor {floor : Floor SessionId}
    (h : (st.remove session draw).floors[room]? = some floor) :
    (st.floors[room]? = some floor ∧
      ∀ gone, st.hub.clients.find? (fun c => c.session = session) = some gone →
        room ≠ gone.room) ∨
      ∃ held, st.floors[room]? = some held ∧ floor = Floors.forget held session ∧ floor ≠ [] := by
  rw [remove] at h
  cases hgone : st.hub.clients.find? fun c => c.session = session with
  | none =>
    rw [hgone] at h
    exact .inl ⟨h, fun gone hsome => by cases hsome⟩
  | some gone =>
    simp only [hgone] at h
    by_cases hroom : room = gone.room
    · right
      subst hroom
      cases hheld : st.floors[gone.room]? with
      | none =>
        simp only [hheld] at h
        cases h
      | some held =>
        simp only [hheld] at h
        by_cases hempty : (Floors.forget held session).isEmpty
        · rw [if_pos hempty, erase_at, if_pos rfl] at h
          cases h
        · rw [if_neg hempty, insert_at, if_pos rfl] at h
          obtain rfl := Option.some.inj h
          exact ⟨held, rfl, rfl, by simpa using hempty⟩
    · left
      refine ⟨?_, fun other hother => by rw [← Option.some.inj hother]; exact hroom⟩
      cases hheld : st.floors[gone.room]? with
      | none =>
        simp only [hheld] at h
        exact h
      | some held =>
        simp only [hheld] at h
        split_ifs at h
        · rwa [erase_at, if_neg hroom] at h
        · rwa [insert_at, if_neg hroom] at h

/-- Whoever is in another room than the one removed is somebody else. -/
theorem Sound.elsewhere (h : Sound st) {other : SessionId} (hmem : (other, room) ∈ st.hub.roster)
    (hroom : ∀ gone, st.hub.clients.find? (fun c => c.session = session) = some gone →
      room ≠ gone.room) :
    other ≠ session := by
  rintro rfl
  obtain ⟨c, hc, hpair⟩ := List.mem_map.mp hmem
  obtain ⟨gone, hgone⟩ : ∃ gone, st.hub.clients.find? (fun c => c.session = other) = some gone := by
    rw [← Option.isSome_iff_exists, List.find?_isSome]
    exact ⟨c, hc, decide_eq_true (Prod.mk.inj hpair).1⟩
  exact hroom gone hgone (h.seated.room_eq hmem (Seated.gone_mem hgone))

theorem Sound.remove (h : Sound st) : Sound (st.remove session draw) := by
  have hroster :
      (st.remove session draw).hub.roster = st.hub.roster.filter fun e => e.1 ≠ session := by
    rw [remove_hub, Hub.remove_roster, eraseP_fst h.seated.once]
  have hstays : ∀ other r, (other, r) ∈ st.hub.roster → other ≠ session →
      (other, r) ∈ (st.remove session draw).hub.roster := by
    intro other r hmem hne
    rw [hroster, List.mem_filter]
    exact ⟨hmem, decide_eq_true hne⟩
  have hthere : ∀ room floor, (st.remove session draw).floors[room]? = some floor →
      ∀ talker ∈ floor, (talker.session, room) ∈ (st.remove session draw).hub.roster := by
    intro room floor hfloor talker htalker
    rcases remove_floor hfloor with ⟨hsame, hother⟩ | ⟨held, hheld, rfl, -⟩
    · have hmem := h.remembers.there room floor hsame talker htalker
      exact hstays _ _ hmem (h.elsewhere hmem hother)
    · obtain ⟨hmem, hne⟩ := List.mem_filter.mp htalker
      exact hstays _ _ (h.remembers.there room held hheld talker hmem) (of_decide_eq_true hne)
  refine ⟨?_, ?_, ?_, hthere⟩
  · rw [remove_hub]
    exact h.seated.remove
  · intro room floor hfloor
    rcases remove_floor hfloor with ⟨hsame, -⟩ | ⟨held, hheld, rfl, -⟩
    · exact h.fair room floor hsame
    · exact Floors.forget_fair (h.fair room held hheld) session
  · intro room floor hfloor
    rcases remove_floor hfloor with ⟨hsame, hother⟩ | ⟨held, hheld, rfl, hne⟩
    · obtain ⟨other, hmem⟩ := h.remembers.someone room floor hsame
      exact ⟨other, hstays _ _ hmem (h.elsewhere hmem hother)⟩
    · -- A floor that isn't empty remembers somebody, who is there.
      obtain ⟨talker, rest, hfirst⟩ := List.exists_cons_of_ne_nil hne
      refine ⟨talker.session, hthere room _ hfloor talker ?_⟩
      rw [hfirst]
      exact List.mem_cons_self

end Removing

section Commands

/-- More people in the rooms remember no less. -/
theorem Remembers.grows {st next : Forwarding} (h : Remembers st)
    (hfloors : next.floors = st.floors)
    (hroster : ∀ e ∈ st.hub.roster, e ∈ next.hub.roster) : Remembers next := by
  refine ⟨?_, ?_⟩
  · intro room floor hfloor
    rw [hfloors] at hfloor
    obtain ⟨session, hmem⟩ := h.someone room floor hfloor
    exact ⟨session, hroster _ hmem⟩
  · intro room floor hfloor talker htalker
    rw [hfloors] at hfloor
    exact hroster _ (h.there room floor hfloor talker htalker)

theorem Sound.command (h : Sound st) (act : Act) : Sound (st.command act) := by
  obtain ⟨command, going, coming⟩ := act
  cases command with
  | join session room =>
    have hleft : Sound (st.remove session going) := h.remove
    change Sound (st.join session room going coming)
    rw [join]
    split_ifs
    · have hnew : ∀ r, (session, r) ∉ (st.remove session going).hub.roster := by
        intro r
        rw [remove_hub]
        exact h.seated.not_mem_remove
      refine ⟨hleft.seated.enter hnew, hleft.fair, Remembers.grows hleft.remembers rfl ?_⟩
      intro e he
      change e ∈ (Hub.enter _ _ _ _).roster
      rw [Hub.enter_roster]
      exact List.mem_append_left _ he
    · exact hleft
  | answer session answer =>
    refine ⟨h.seated.answer, h.fair, Remembers.grows h.remembers rfl ?_⟩
    intro e he
    change e ∈ (Hub.answer _ _ _ _).roster
    rw [Hub.answer_roster]
    exact he
  | leave session => exact h.remove

theorem Sound.commands (h : Sound st) (acts : List Act) :
    Sound (acts.foldl Forwarding.command st) := by
  induction acts generalizing st with
  | nil => exact h
  | cons act acts ih => exact ih (h.command act)

/-- After a sweep, those whose connection hasn't ended are there. -/
theorem Sound.sweep (h : Sound st) (ended : SessionId → Bool) (draw : SessionId → Draws) :
    Sound (st.sweep ended draw) ∧
      ∀ session room, (session, room) ∈ (st.sweep ended draw).hub.roster ↔
        (session, room) ∈ st.hub.roster ∧ ended session = false := by
  have hremoves : ∀ (dead : List SessionId) (st : Forwarding), Sound st →
      Sound (dead.foldl (fun st session => st.remove session (draw session)) st) ∧
        ∀ session room,
          (session, room) ∈ (dead.foldl
            (fun st session => st.remove session (draw session)) st).hub.roster ↔
            (session, room) ∈ st.hub.roster ∧ session ∉ dead := by
    intro dead
    induction dead with
    | nil => exact fun st h => ⟨h, fun session room => by simp⟩
    | cons gone dead ih =>
      intro st h
      obtain ⟨hsound, hroster⟩ := ih (st.remove gone (draw gone)) h.remove
      refine ⟨hsound, ?_⟩
      intro session room
      rw [List.foldl_cons, hroster, remove_hub, Hub.remove_roster, eraseP_fst h.seated.once,
        List.mem_filter, List.mem_cons, not_or, decide_eq_true_iff, and_assoc]
  obtain ⟨hsound, hroster⟩ :=
    hremoves ((st.hub.clients.filter fun c => ended c.session).map Client.session) st h
  refine ⟨hsound, ?_⟩
  intro session room
  rw [Forwarding.sweep]
  rw [hroster]
  apply and_congr_right
  intro hmem
  obtain ⟨c, hc, hpair⟩ := List.mem_map.mp hmem
  obtain ⟨rfl, -⟩ := Prod.mk.inj hpair
  constructor
  · intro hnot
    by_contra hended
    refine hnot (List.mem_map.mpr ⟨c, List.mem_filter.mpr ⟨hc, ?_⟩, rfl⟩)
    simpa using hended
  · intro hgoes hdead
    obtain ⟨d, hd, hsame⟩ := List.mem_map.mp hdead
    have hended := (List.mem_filter.mp hd).2
    rw [hsame, hgoes] at hended
    cases hended

end Commands

section Passing
variable {now : ℕ} {heard : SessionId × RoomId × Packet}
  {voices : List (SessionId × RoomId × Packet)}

theorem pass_floor (st : Forwarding) (now : ℕ) (heard : SessionId × RoomId × Packet)
    (room : RoomId) :
    (pass now st heard).floors[room]? =
      if room = heard.2.1 then
        some (Floors.hear
          (st.floors[heard.2.1]?.getD []) heard.1 heard.2.2.level heard.2.2.bytes now).1
      else st.floors[room]? := by
  rw [pass]
  dsimp only
  rw [insert_at]

/-- The floor a voice is passed to, whether or not there is one yet, is fair. -/
theorem AllFair.held (h : AllFair st.floors) (room : RoomId) :
    Fair (st.floors[room]?.getD []) := by
  cases hfloor : st.floors[room]? with
  | none => exact ⟨List.nodup_nil, Nat.zero_le _⟩
  | some floor => exact h room floor hfloor

theorem pass_fair (h : AllFair st.floors) (now : ℕ)
    (heard : SessionId × RoomId × Packet) :
    AllFair (pass now st heard).floors := by
  intro room floor hfloor
  rw [pass_floor] at hfloor
  split_ifs at hfloor
  · obtain rfl := Option.some.inj hfloor
    exact Floors.hear_fair (h.held _) _ _ _ _
  · exact h room floor hfloor

/-- A voice that leaves its floor remembering only who is there. -/
def Welcome (st : Forwarding) (heard : SessionId × RoomId × Packet) : Prop :=
  (heard.1, heard.2.1) ∈ st.hub.roster ∨
    (heard.2.2.bytes ≤ SILENCE_MAX ∧ ∃ session, (session, heard.2.1) ∈ st.hub.roster)

theorem Sound.pass (h : Sound st) (hwelcome : Welcome st heard) : Sound (pass now st heard) := by
  have hfair := h.fair.held heard.2.1
  refine ⟨h.seated, pass_fair h.fair now heard, ?_, ?_⟩
  · intro room floor hfloor
    rw [pass_floor] at hfloor
    split_ifs at hfloor with hroom
    · subst hroom
      rcases hwelcome with hthere | ⟨-, hsomeone⟩
      · exact ⟨heard.1, hthere⟩
      · exact hsomeone
    · exact h.remembers.someone room floor hfloor
  · intro room floor hfloor talker htalker
    rw [pass_floor] at hfloor
    split_ifs at hfloor with hroom
    · subst hroom
      obtain rfl := Option.some.inj hfloor
      rcases Floors.hear_from hfair.once htalker with ⟨hloud, hself⟩ | ⟨held, hheld, hsame⟩
      · rcases hwelcome with hthere | ⟨hsilent, -⟩
        · rw [hself]
          exact hthere
        · omega
      · rw [← hsame]
        cases hfloor : st.floors[heard.2.1]? with
        | none =>
          rw [hfloor] at hheld
          cases hheld
        | some floor =>
          rw [hfloor] at hheld
          exact h.remembers.there _ floor hfloor held hheld
    · exact h.remembers.there room floor hfloor talker htalker

/-- What a voice leaves on its floor: a floor, with its talker if it was more than silence. -/
def Marked (now : ℕ) (st : Forwarding) (heard : SessionId × RoomId × Packet) : Prop :=
  ∃ floor, st.floors[heard.2.1]? = some floor ∧
    (SILENCE_MAX < heard.2.2.bytes → HeardAt floor heard.1 now)

theorem marked_self (h : AllFair st.floors) (now : ℕ)
    (heard : SessionId × RoomId × Packet) : Marked now (pass now st heard) heard := by
  refine ⟨_, (pass_floor st now heard heard.2.1).trans (if_pos rfl), ?_⟩
  exact fun hloud => Floors.hear_self (h.held _).once _ _ _ hloud

theorem Marked.pass (h : AllFair st.floors) (hmarked : Marked now st heard)
    (other : SessionId × RoomId × Packet) : Marked now (pass now st other) heard := by
  obtain ⟨floor, hfloor, hheard⟩ := hmarked
  by_cases hroom : heard.2.1 = other.2.1
  · refine ⟨_, (pass_floor st now other heard.2.1).trans (if_pos hroom), ?_⟩
    intro hloud
    rw [← hroom, hfloor]
    exact Floors.hear_stays (h _ floor hfloor).once _ _ _ (hheard hloud)
  · exact ⟨floor, (pass_floor st now other heard.2.1).trans ((if_neg hroom).trans hfloor), hheard⟩

/-- Passing voices on leaves every floor remembering only who is there just where each voice is
welcome. -/
theorem passes_iff (h : Sound st) (now : ℕ) (voices : List (SessionId × RoomId × Packet)) :
    Sound (voices.foldl (Forwarding.pass now) st) ↔ ∀ heard ∈ voices, Welcome st heard := by
  have hhub : ∀ (voices : List (SessionId × RoomId × Packet)) (st : Forwarding),
      (voices.foldl (Forwarding.pass now) st).hub = st.hub := by
    intro voices
    induction voices with
    | nil => exact fun st => rfl
    | cons heard voices ih => exact fun st => ih (Forwarding.pass now st heard)
  constructor
  · intro hsound
    have hmarked : ∀ (voices : List (SessionId × RoomId × Packet)) (st : Forwarding),
        AllFair st.floors → ∀ heard, heard ∈ voices ∨ Marked now st heard →
          Marked now (voices.foldl (Forwarding.pass now) st) heard := by
      intro voices
      induction voices with
      | nil =>
        rintro st - heard (hnone | hmarked)
        · cases hnone
        · exact hmarked
      | cons first voices ih =>
        intro st hfair heard hcase
        apply ih (Forwarding.pass now st first) (pass_fair hfair now first)
        rcases hcase with hmem | hmarked
        · rcases List.mem_cons.mp hmem with rfl | hmem
          · exact .inr (marked_self hfair now heard)
          · exact .inl hmem
        · exact .inr (hmarked.pass hfair first)
    intro heard hheard
    obtain ⟨floor, hfloor, hloud⟩ := hmarked voices st h.fair heard (.inl hheard)
    by_cases hsilent : heard.2.2.bytes ≤ SILENCE_MAX
    · have hsomeone := hsound.remembers.someone _ floor hfloor
      rw [hhub] at hsomeone
      exact .inr ⟨hsilent, hsomeone⟩
    · obtain ⟨talker, htalker, hsession, -⟩ := hloud (not_le.mp hsilent)
      have hthere := hsound.remembers.there _ floor hfloor talker htalker
      rw [hhub, hsession] at hthere
      exact .inl hthere
  · intro hwelcome
    induction voices generalizing st with
    | nil => exact h
    | cons first voices ih =>
      refine ih (h.pass (hwelcome first List.mem_cons_self)) ?_
      intro heard hheard
      exact hwelcome heard (List.mem_cons_of_mem _ hheard)

end Passing

section Turns
variable {t : Turn}

theorem Sound.turn_seated (h : Sound st) (t : Turn) :
    Seated (st.turn t).hub ∧ AllFair (st.turn t).floors := by
  have hswept := ((h.commands t.commands).sweep (fun session => (t.polled session).ended) t.draw).1
  have hkept : ∀ (voices : List (SessionId × RoomId × Packet)) (st : Forwarding),
      (Seated st.hub ∧ AllFair st.floors) →
      Seated (voices.foldl (Forwarding.pass t.now) st).hub ∧
        AllFair (voices.foldl (Forwarding.pass t.now) st).floors := by
    intro voices
    induction voices with
    | nil => exact fun st h => h
    | cons first voices ih => exact fun st h => ih _ ⟨h.1, pass_fair h.2 t.now first⟩
  exact hkept _ _ ⟨hswept.seated, hswept.fair⟩

/-- What a turn comes to depends on the voices of the connections it drops. -/
theorem Sound.turn_iff (h : Sound st) (t : Turn) : Sound (st.turn t) ↔ EndsUnheard st t := by
  have hcommanded := h.commands t.commands
  obtain ⟨hswept, hroster⟩ := hcommanded.sweep (fun session => (t.polled session).ended) t.draw
  rw [Forwarding.turn]
  rw [passes_iff hswept, EndsUnheard]
  apply forall₂_congr
  intro heard hheard
  have hthere : (heard.1, heard.2.1) ∈ (t.commands.foldl Forwarding.command st).hub.roster := by
    obtain ⟨c, hc, hvoice⟩ := List.mem_flatMap.mp hheard
    obtain ⟨packet, -, rfl⟩ := List.mem_map.mp hvoice
    exact Hub.mem_roster hc
  have hgoes : (∃ session, (session, heard.2.1) ∈ ((t.commands.foldl Forwarding.command st).sweep
      (fun session => (t.polled session).ended) t.draw).hub.roster) ↔
      ∃ c ∈ (t.commands.foldl Forwarding.command st).hub.clients, c.room = heard.2.1 ∧
        (t.polled c.session).ended = false := by
    constructor
    · rintro ⟨session, hmem⟩
      obtain ⟨hmem, hended⟩ := (hroster session heard.2.1).mp hmem
      obtain ⟨c, hc, hpair⟩ := List.mem_map.mp hmem
      obtain ⟨rfl, hroom⟩ := Prod.mk.inj hpair
      exact ⟨c, hc, hroom, hended⟩
    · rintro ⟨c, hc, hroom, hended⟩
      refine ⟨c.session, (hroster c.session heard.2.1).mpr ⟨?_, hended⟩⟩
      rw [← hroom]
      exact Hub.mem_roster hc
  rw [Welcome, hroster, and_iff_right hthere, hgoes]
  cases (t.polled heard.1).ended with
  | false => simp
  | true => simp

theorem sound_start (usable : Bool) : Sound (run usable).start := by
  refine ⟨⟨List.nodup_nil, fun c hnone => absurd hnone List.not_mem_nil⟩, ?_, ?_, ?_⟩
  · intro room floor hfloor
    exact absurd hfloor (by simp [run])
  · intro room floor hfloor
    exact absurd hfloor (by simp [run])
  · intro room floor hfloor
    exact absurd hfloor (by simp [run])

/-- States that remember only who is there are sound ones, all along a run. -/
theorem sound_of_remembers {usable : Bool} {turns : List Turn}
    (hall : ∀ ms ns s, turns = ms ++ ns → (run usable).run ms = some s → Remembers s)
    (ms : List Turn) :
    ∀ ns s, turns = ms ++ ns → (run usable).run ms = some s → Sound s := by
  induction ms using List.reverseRecOn with
  | nil =>
    rintro ns s - hs
    obtain rfl := Option.some.inj hs
    exact sound_start usable
  | append_singleton ms t ih =>
    intro ns s hturns hs
    have hs' := hs
    rw [Machine.run, Machine.runFrom_snoc] at hs'
    obtain ⟨before, hbefore, hstep⟩ := Option.bind_eq_some_iff.mp hs'
    obtain rfl := Option.some.inj hstep
    have hsound :=
      ih (t :: ns) before (by rw [hturns, List.append_assoc, List.singleton_append]) hbefore
    exact ⟨(hsound.turn_seated t).1, (hsound.turn_seated t).2, hall _ ns _ hturns hs⟩

end Turns

/-- In a run of the loop the floors remember only who is there, at the end of every turn, just where
no connection ends in the turn that its voice came in. -/
theorem floors_remember_iff {usable : Bool} {turns : List Turn} {st : Forwarding}
    (hrun : (run usable).run turns = some st) :
    (∀ ms ns s, turns = ms ++ ns → (run usable).run ms = some s → Remembers s) ↔
      (run usable).Meets EndsUnheard turns := by
  have hstep : ∀ s t next, Sound s → (run usable).step s t = some next →
      (Sound next ↔ EndsUnheard s t) := by
    intro s t next hs hnext
    obtain rfl := Option.some.inj hnext
    exact hs.turn_iff t
  rw [← (run usable).states_iff_meets (sound_start usable) hstep hrun]
  constructor
  · exact fun hall ms => sound_of_remembers hall ms
  · exact fun hsound ms ns s hturns hs => (hsound ms ns s hturns hs).remembers

/-- Somebody comes into a room and is heard, and their connection goes on, or not. -/
def speaks (ended : Bool) : Turn :=
  { commands := [⟨.join 1 5, fun _ _ _ => 0, fun _ _ n => n⟩]
    polled := fun _ => ⟨[⟨some (-30), 160⟩], ended⟩
    draw := fun _ _ _ _ => 0
    now := 0 }

instance (st : Forwarding) (t : Turn) : Decidable (EndsUnheard st t) :=
  inferInstanceAs (Decidable (∀ heard ∈ (t.commands.foldl Forwarding.command st).heard t.polled,
    (t.polled heard.1).ended = true → heard.2.2.bytes ≤ SILENCE_MAX ∧
      ∃ c ∈ (t.commands.foldl Forwarding.command st).hub.clients,
        c.room = heard.2.1 ∧ (t.polled c.session).ended = false))

/-- Everybody in voice is heard in a turn, but the one whose connection ends. -/
def goes (commands : List Command) (ended : Option SessionId) (now : ℕ) : Turn :=
  { commands := commands.map fun command => ⟨command, fun _ _ _ => 0, fun _ _ n => n⟩
    polled :=
      fun session => if ended = some session then ⟨[], true⟩ else ⟨[⟨some (-30), 160⟩], false⟩
    draw := fun _ _ _ _ => 0
    now := now }

/-- Four come into two rooms and are heard, one of them leaves, and another's connection ends. -/
def talks : List Turn :=
  [goes [.join 1 5, .join 2 5, .join 3 6, .join 4 5] none 0, goes [.leave 2] none 20,
    goes [] (some 3) 40, goes [] none 60]

theorem floors_remember_talks :
    ∃ st, (run true).run talks = some st ∧ st.hub.roster = [(1, 5), (4, 5)] ∧
    ∀ ms ns s, talks = ms ++ ns → (run true).run ms = some s → Remembers s :=
  ⟨_, rfl, by rfl, (floors_remember_iff rfl).mpr (by decide +kernel)⟩

/-- The room everybody has left keeps a floor, and the one who left a seat. -/
theorem ended_still_seated : ¬Remembers ((run true).start.turn (speaks true)) := by
  intro hremembers
  have hfloor : ((run true).start.turn (speaks true)).floors[5]? = some [⟨1, -30, 0, true⟩] := by
    rfl
  have hthere := hremembers.there 5 _ hfloor _ List.mem_cons_self
  have hempty : ((run true).start.turn (speaks true)).hub.roster = [] := by rfl
  rw [hempty] at hthere
  cases hthere

end Forwarding

end Linger.Sfu
