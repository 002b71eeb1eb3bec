import Linger.SoundEvents

/-! The minute and the wait: in a run whose frames are clear of what the cues cannot see, nobody is
rung for within a minute of a ring for them or of their stopping, and every join handed over is
played in time or left for a reason. -/
namespace Linger.SoundEvents
open FiniteMap StepMachine

/-- What came of a join is what should: the ring that stands for it came within the wait of it. -/
def Good (history : List Mark) (handed : Handed) : Fate → Prop
  | .played moment => handed.moment ≤ moment ∧ moment ≤ handed.moment + watchJoinWaitMs
  | .rang people => ∃ person ∈ handed.people, person ∈ people ∧ ∃ moment,
      ⟨.rang, person, moment⟩ ∈ history ∧ moment ≤ handed.moment + watchJoinWaitMs ∧
        handed.moment ≤ moment + watchJoinWaitMs
  | .left room => handed.room ≠ none ∧ room = none

/-- Nobody is rung for within a minute of what else became of their watching, and every join is
settled as it should be or waits within its time. -/
structure Keeps (window : Window) : Prop where
  minute : window.history.Pairwise fun later earlier =>
    later.what = .rang → later.person = earlier.person →
      earlier.moment + peerCueEveryMs ≤ later.moment
  settled : ∀ join ∈ window.settled, Good window.history join.1 join.2
  waiting : ∀ handed ∈ window.waiting, window.clock ≤ handed.moment + watchJoinWaitMs

/-- Nobody who starts watching in this frame stopped between frames less than a minute ago, and a
ring for a join held back is one for each of the joins held back with it. -/
structure Clear (window : Window) (frame : ServerFrame) (now : ℕ) : Prop where
  seen : ∀ person ∈ (watchChange frame window.state (apply window.state frame)).1,
    ∀ mark ∈ window.history,
    mark.what = .unseen → mark.person = person → mark.moment + peerCueEveryMs ≤ now
  apiece : ∀ held, window.cues.held = some held →
    (∃ person ∈ (watchChange frame window.state (apply window.state frame)).1,
      person ∈ held.people ∧ window.cues.due now person = true) →
    ∀ handed ∈ window.waiting, ∃ person ∈ handed.people,
      person ∈ (watchChange frame window.state (apply window.state frame)).1 ∧
        window.cues.due now person = true

def Allowed (window : Window) : Event → Prop
  | .frame frame _ false now => Clear window frame now
  | _ => True

/-- Who watches your share. -/
def GatewayState.watchers (state : GatewayState) : List UserId := (watchersOfMine state).getD []

/-- What the cues still know of a mark. -/
def Known (cues : WatchCues) (window : Window) (mark : Mark) : Prop :=
  (∃ stopped, cues.stopped[mark.person]? = some stopped ∧ mark.moment ≤ stopped) ∨
    mark.person ∈ window.state.watchers ∨
    ∃ unseen ∈ window.history, unseen.what = .unseen ∧ unseen.person = mark.person ∧
      mark.moment ≤ unseen.moment

/-- A join held back plays within its wait, and was handed over in voice. -/
structure Waits (held : Held) (handed : Handed) : Prop where
  due : held.due ≤ handed.moment + watchJoinWaitMs
  room : handed.room ≠ none

/-- A join held back plays neither late nor, for what is held back with it, later than its wait. -/
structure Holds (window : Window) (held : Held) : Prop where
  ahead : window.clock ≤ held.due
  soon : held.due ≤ window.clock + watchJoinWaitMs
  waits : ∀ handed ∈ window.waiting, Waits held handed

/-- The cues and what has become of everything so far. -/
structure Inv (cues : WatchCues) (window : Window) : Prop where
  minute : window.history.Pairwise fun later earlier =>
    later.what = .rang → later.person = earlier.person →
      earlier.moment + peerCueEveryMs ≤ later.moment
  past : ∀ mark ∈ window.history, mark.moment ≤ window.clock
  known : ∀ mark ∈ window.history, Known cues window mark
  rang : ∀ (person : UserId) (moment : ℕ), cues.rang[person]? = some moment →
    ⟨.rang, person, moment⟩ ∈ window.history
  settled : ∀ join ∈ window.settled, Good window.history join.1 join.2
  handed : ∀ handed ∈ window.waiting, handed.moment ≤ window.clock
  held : ∀ held, cues.held = some held → Holds window held
  idle : cues.held = none → window.waiting = []

section Marks
variable {before after : GatewayState} {frame : ServerFrame} {person : UserId} {now : ℕ}

theorem mem_stops :
    person ∈ stops before after ↔ person ∈ before.watchers ∧ person ∉ after.watchers := by
  simp [stops, GatewayState.watchers]

/-- Whoever stops in a frame is noted as having stopped. -/
theorem stopped_of_stops (h : person ∈ stops before after) :
    person ∈ (watchChange frame before after).2 := by
  obtain ⟨hwas, hnot⟩ := mem_stops.mp h
  unfold watchChange
  by_cases hsame : before.sessionId = after.sessionId
  · rw [if_pos hsame]
    exact List.mem_filter.mpr ⟨hwas, by simpa [GatewayState.watchers] using hnot⟩
  · rw [if_neg hsame]
    exact List.mem_filter.mpr ⟨hwas, by simp⟩

/-- Whoever starts watches after it and did not before. -/
theorem mem_started (h : person ∈ (watchChange frame before after).1) :
    person ∉ before.watchers ∧ person ∈ after.watchers := by
  unfold watchChange at h
  by_cases hsame : before.sessionId = after.sessionId
  · rw [if_pos hsame] at h
    dsimp only at h
    split at h
    · next was is room peers hwas his =>
      obtain ⟨hin, hnot⟩ := List.mem_filter.mp h
      simp only [GatewayState.watchers, hwas, his, Option.getD_some]
      exact ⟨by simpa using hnot, hin⟩
    · exact absurd h List.not_mem_nil
  · rw [if_neg hsame] at h
    dsimp only at h
    split at h
    · next his => cases his
    · exact absurd h List.not_mem_nil

theorem stopped_not_started (h : person ∈ (watchChange frame before after).1) :
    person ∉ (watchChange frame before after).2 := by
  intro hstopped
  unfold watchChange at hstopped
  exact (mem_started h).1 (List.mem_of_mem_filter hstopped)

theorem nodup_watchers (state : GatewayState) : state.watchers.Nodup := by
  unfold GatewayState.watchers watchersOfMine
  cases mySeat state with
  | none => exact List.nodup_nil
  | some mine =>
    rw [Option.bind_some]
    split
    · exact List.nodup_dedup _
    · exact List.nodup_nil

theorem nodup_started : (watchChange frame before after).1.Nodup := by
  unfold watchChange
  dsimp only
  split
  · next was is room peers hwas his =>
    apply List.Nodup.filter
    by_cases hsame : before.sessionId = after.sessionId
    · rw [if_pos hsame] at his
      have hnodup := nodup_watchers after
      rw [GatewayState.watchers, his] at hnodup
      exact hnodup
    · rw [if_neg hsame] at his
      cases his
  · exact List.nodup_nil

theorem mem_marks {what : What} {people : List UserId} {mark : Mark}
    (h : mark ∈ marks what now people) :
    mark.what = what ∧ mark.person ∈ people ∧ mark.moment = now := by
  obtain ⟨person, hmem, rfl⟩ := List.mem_map.mp h
  exact ⟨rfl, hmem, rfl⟩

end Marks

section Frame
variable {window : Window} {cues : WatchCues} {frame : ServerFrame} {now : ℕ}

theorem Good.more {history : List Mark} {handed : Handed} {fate : Fate}
    (h : Good history handed fate)
    (more : List Mark) : Good (more ++ history) handed fate := by
  cases fate with
  | played moment => exact h
  | left room => exact h
  | rang people =>
    obtain ⟨person, hin, hrang, moment, hmark, hwithin⟩ := h
    exact ⟨person, hin, hrang, moment, List.mem_append_right _ hmark, hwithin⟩

/-- Marks that are no rings add nothing that a ring comes too soon after. -/
theorem minute_append {history : List Mark} {what : What} {people : List UserId}
    (hwhat : what ≠ .rang)
    (h : history.Pairwise fun later earlier =>
      later.what = .rang → later.person = earlier.person →
        earlier.moment + peerCueEveryMs ≤ later.moment) :
    (marks what now people ++ history).Pairwise fun later earlier =>
      later.what = .rang → later.person = earlier.person →
        earlier.moment + peerCueEveryMs ≤ later.moment := by
  refine List.pairwise_append.mpr ⟨?_, h, ?_⟩
  · exact List.pairwise_of_forall_mem_list fun mark hmark _ _ hrang =>
      absurd ((mem_marks hmark).1 ▸ hrang) hwhat
  · exact fun mark hmark _ _ hrang => absurd ((mem_marks hmark).1 ▸ hrang) hwhat

/-- The window as a frame finds it, with what it changed of the watching. -/
def Window.noting (window : Window) (after : GatewayState) (what : What) (now : ℕ) : Window :=
  { window with
    state := after
    clock := now
    history := marks what now (stops window.state after) ++ window.history }

/-- What you do between frames is marked as unseen. -/
theorem Inv.becomes (h : Inv window.cues window) (after : GatewayState) (hnow : window.clock ≤ now)
    (hdue : ∀ held, window.cues.held = some held → now ≤ held.due) :
    Inv window.cues (window.noting after .unseen now) := by
  constructor
  case minute => exact minute_append (by decide) h.minute
  case past =>
    intro mark hmark
    rcases List.mem_append.mp hmark with hnew | hold
    · exact (mem_marks hnew).2.2.le
    · exact (h.past mark hold).trans hnow
  case known =>
    intro mark hmark
    rcases List.mem_append.mp hmark with hnew | hold
    · exact Or.inr (Or.inr ⟨mark, hmark, (mem_marks hnew).1, rfl, le_rfl⟩)
    · rcases h.known mark hold with hstopped | hwatches | ⟨unseen, hin, hwhat, hperson, hle⟩
      · exact Or.inl hstopped
      · by_cases hstill : mark.person ∈ after.watchers
        · exact Or.inr (Or.inl hstill)
        · have hnew : ⟨.unseen, mark.person, now⟩ ∈ marks .unseen now (stops window.state after) :=
            List.mem_map.mpr ⟨mark.person, mem_stops.mpr ⟨hwatches, hstill⟩, rfl⟩
          exact Or.inr
            (Or.inr ⟨_, List.mem_append_left _ hnew, rfl, rfl, (h.past mark hold).trans hnow⟩)
      · exact Or.inr (Or.inr ⟨unseen, List.mem_append_right _ hin, hwhat, hperson, hle⟩)
  case rang =>
    exact fun person moment hat => List.mem_append_right _ (h.rang person moment hat)
  case settled => exact fun join hjoin => (h.settled join hjoin).more _
  case handed => exact fun handed hin => (h.handed handed hin).trans hnow
  case held =>
    intro held hheld
    have hholds := h.held held hheld
    exact ⟨hdue held hheld, hholds.soon.trans (Nat.add_le_add_right hnow _), hholds.waits⟩
  case idle => exact h.idle

/-- What a frame changed is noted: whoever stops has stopped now, and whoever starts is watching. -/
theorem Inv.noted (h : Inv window.cues window) (hnow : window.clock ≤ now)
    (hdue : ∀ held, window.cues.held = some held → now ≤ held.due) :
    Inv ((window.cues.noteStopped
      (watchChange frame window.state (apply window.state frame)).2 now).noteStarted
        (watchChange frame window.state (apply window.state frame)).1)
      (window.noting (apply window.state frame) .stopped now) := by
  generalize hchange : watchChange frame window.state (apply window.state frame) = change
  -- Who stopped is noted with this moment, and whoever starts is noted no more.
  have hat : ∀ person : UserId,
      ((window.cues.noteStopped change.2 now).noteStarted change.1).stopped[person]? =
      if person ∈ change.1 then none else if person ∈ change.2 then some now
        else window.cues.stopped[person]? := by
    intro person
    unfold WatchCues.noteStarted WatchCues.noteStopped
    rw [erase_all_at, insert_all_at]
  have hstarted : ∀ person ∈ change.1, person ∉ window.state.watchers ∧
      person ∈ (apply window.state frame).watchers :=
    fun person hin => mem_started (hchange ▸ hin)
  have hstops : ∀ person ∈ stops window.state (apply window.state frame), person ∉ change.1 ∧
      person ∈ change.2 :=
    fun person hin => ⟨fun hstart => (mem_stops.mp hin).2 (hstarted person hstart).2,
      hchange ▸ stopped_of_stops hin⟩
  constructor
  case minute => exact minute_append (by decide) h.minute
  case past =>
    intro mark hmark
    rcases List.mem_append.mp hmark with hnew | hold
    · exact (mem_marks hnew).2.2.le
    · exact (h.past mark hold).trans hnow
  -- `known`: a mark is noted, or its person watches, or it fell between two frames.
  case known =>
    have hstopped : ∀ mark : Mark, mark.moment ≤ now →
        mark.person ∈ stops window.state (apply window.state frame) →
        Known ((window.cues.noteStopped change.2 now).noteStarted change.1)
          (window.noting (apply window.state frame) .stopped now) mark := by
      intro mark hle hin
      obtain ⟨hnot, hnoted⟩ := hstops mark.person hin
      exact Or.inl ⟨now, by rw [hat, if_neg hnot, if_pos hnoted], hle⟩
    intro mark hmark
    rcases List.mem_append.mp hmark with hnew | hold
    · obtain ⟨-, hperson, hmoment⟩ := mem_marks hnew
      exact hstopped mark hmoment.le hperson
    · have hle := (h.past mark hold).trans hnow
      rcases h.known mark hold with
        ⟨stopped, hstop, hbefore⟩ | hwatches | ⟨unseen, hin, hwhat, hperson, hbefore⟩
      -- She starts again in this frame, or stopped in it, or neither.
      · by_cases hstart : mark.person ∈ change.1
        · exact Or.inr (Or.inl (hstarted mark.person hstart).2)
        · left
          by_cases hnoted : mark.person ∈ change.2
          · exact ⟨now, by rw [hat, if_neg hstart, if_pos hnoted], hle⟩
          · exact ⟨stopped, by rw [hat, if_neg hstart, if_neg hnoted]; exact hstop, hbefore⟩
      -- She watched before: she still does, or her stop is noted now.
      · by_cases hstill : mark.person ∈ (apply window.state frame).watchers
        · exact Or.inr (Or.inl hstill)
        · exact hstopped mark hle (mem_stops.mpr ⟨hwatches, hstill⟩)
      · exact Or.inr (Or.inr ⟨unseen, List.mem_append_right _ hin, hwhat, hperson, hbefore⟩)
  case rang =>
    exact fun person moment hrang => List.mem_append_right _ (h.rang person moment hrang)
  case settled => exact fun join hjoin => (h.settled join hjoin).more _
  case handed => exact fun handed hin => (h.handed handed hin).trans hnow
  case held =>
    intro held hheld
    have hholds := h.held held hheld
    exact ⟨hdue held hheld, hholds.soon.trans (Nat.add_le_add_right hnow _), hholds.waits⟩
  case idle => exact h.idle

/-- Whoever is rung for had nothing become of their watching within the minute. -/
theorem Inv.quiet (h : Inv window.cues window) (hclear : Clear window frame now) {person : UserId}
    (hstarted : person ∈ (watchChange frame window.state (apply window.state frame)).1)
    (hdue : window.cues.due now person = true) {mark : Mark}
    (hmark : mark ∈ (window.noting (apply window.state frame) .stopped now).history)
    (hperson : mark.person = person) :
    mark.moment + peerCueEveryMs ≤ now := by
  -- A mark of this frame would be of somebody who stops in it, and she starts.
  rcases List.mem_append.mp hmark with hnew | hold
  · have hstop := (mem_marks hnew).2.1
    rw [hperson] at hstop
    exact absurd (mem_started hstarted).2 (mem_stops.mp hstop).2
  · rcases h.known mark hold with
      ⟨stopped, hstop, hle⟩ | hwatches | ⟨unseen, hin, hwhat, hsame, hle⟩
    · rw [hperson] at hstop
      have hlong : stopped + peerCueEveryMs ≤ now := by simpa [WatchCues.due, hstop] using hdue
      omega
    · exact absurd (hperson ▸ hwatches) (mem_started hstarted).1
    · have hlong := hclear.seen person hstarted unseen hin hwhat (hsame.trans hperson)
      omega

/-- A stop that a frame brings is not of somebody it has start, so it leaves who is due as it
was. -/
theorem due_noted {person : UserId} {stopped : List UserId} (h : person ∉ stopped)
    (cues : WatchCues) :
    (cues.noteStopped stopped now).due now person = cues.due now person := by
  unfold WatchCues.due WatchCues.noteStopped
  rw [insert_all_at, if_neg h]

end Frame

section Stages
variable {window : Window} {cues : WatchCues} {now : ℕ} {due : List UserId}

/-- Rings for people of whom nothing became within the minute. -/
theorem Inv.ring (h : Inv cues window) (hnow : window.clock = now) (hnodup : due.Nodup)
    (hquiet : ∀ person ∈ due, ∀ mark ∈ window.history, mark.person = person →
      mark.moment + peerCueEveryMs ≤ now)
    (hwatch : ∀ person ∈ due, person ∈ window.state.watchers) :
    Inv (cues.ring due now).1
      ((cues.ring due now).2.foldl (fun window told => window.tells now told) window) := by
  unfold WatchCues.ring
  split
  · exact h
  · show Inv { cues with rang := _ }
        { window with history := marks .rang now due ++ window.history }
    constructor
    -- `minute`: whoever is rung for has no mark within the minute.
    case minute =>
      refine List.pairwise_append.mpr ⟨?_, h.minute, ?_⟩
      · unfold marks
        rw [List.pairwise_map]
        exact hnodup.imp fun hne _ hsame => absurd hsame hne
      · intro later hlater earlier hearlier _ hsame
        obtain ⟨-, hperson, hmoment⟩ := mem_marks hlater
        rw [hmoment]
        exact hquiet later.person hperson earlier hearlier hsame.symm
    case past =>
      intro mark hmark
      rcases List.mem_append.mp hmark with hnew | hold
      · exact ((mem_marks hnew).2.2.trans hnow.symm).le
      · exact h.past mark hold
    case known =>
      intro mark hmark
      rcases List.mem_append.mp hmark with hnew | hold
      · exact Or.inr (Or.inl (hwatch _ (mem_marks hnew).2.1))
      · rcases h.known mark hold with hstopped | hwatches | ⟨unseen, hin, hrest⟩
        · exact Or.inl hstopped
        · exact Or.inr (Or.inl hwatches)
        · exact Or.inr (Or.inr ⟨unseen, List.mem_append_right _ hin, hrest⟩)
    case rang =>
      intro person moment hat
      rw [insert_all_at] at hat
      split at hat
      · next hin =>
        cases hat
        exact List.mem_append_left _ (List.mem_map.mpr ⟨person, hin, rfl⟩)
      · exact List.mem_append_right _ (h.rang person moment hat)
    case settled => exact fun join hjoin => (h.settled join hjoin).more _
    case handed => exact h.handed
    case held => exact fun held hheld =>
      ⟨(h.held held hheld).ahead, (h.held held hheld).soon, (h.held held hheld).waits⟩
    case idle => exact h.idle

/-- A join held back ends within its wait, and what it comes to is what should come of each join in
it. -/
theorem Inv.letGo (h : Inv cues window) (hnow : window.clock = now) (play : Bool)
    {people : List UserId}
    (hpeople : play = false →
      people ≠ [] ∧ ∀ handed ∈ window.waiting, Good window.history handed (.rang people)) :
    Inv (cues.letGo play window.state.myVoice.isSome people).1
      ((cues.letGo play window.state.myVoice.isSome people).2.foldl
        (fun window told => window.tells now told) window) := by
  unfold WatchCues.letGo
  split
  · exact h
  · next held hheld =>
    have hdue := (h.held held hheld).ahead
    have hwaits := (h.held held hheld).waits
    -- What becomes of the joins that were held back together.
    have hgood : ∀ handed ∈ window.waiting, Good window.history handed
        (if (play && window.state.myVoice.isSome) = true then .played now
          else if (if play = true then [] else people) = [] then .left window.state.myVoice
          else .rang (if play = true then [] else people)) := by
      intro handed hin
      have hwait := hwaits handed hin
      -- The wait is over: in voice the join is played, out of it nobody hears it.
      cases play with
      | true =>
        cases hroom : window.state.myVoice with
        | some room =>
          have hlate := hwait.due
          exact ⟨hnow ▸ h.handed handed hin, by omega⟩
        | none => exact ⟨hwait.room, rfl⟩
      -- A ring came first, for people the caller has checked.
      | false =>
        obtain ⟨hsome, hrang⟩ := hpeople rfl
        simp only [Bool.false_and, Bool.false_eq_true, if_false, if_neg hsome]
        exact hrang handed hin
    constructor
    case minute => exact h.minute
    case past => exact h.past
    case known => exact h.known
    case rang => exact h.rang
    case settled =>
      intro join hjoin
      rcases List.mem_append.mp hjoin with hnew | hold
      · obtain ⟨handed, hin, rfl⟩ := List.mem_map.mp hnew
        exact hgood handed hin
      · exact h.settled join hold
    case handed => exact fun handed hin => absurd hin List.not_mem_nil
    case held => exact fun held hheld => by cases hheld
    case idle => exact fun _ => rfl

/-- A join that is settled as it is handed over. -/
theorem Inv.settles (h : Inv cues window) {handed : Handed} {fate : Fate}
    (hgood : Good window.history handed fate) :
    Inv cues { window with settled := (handed, fate) :: window.settled } :=
  { h with
    settled := fun join hjoin =>
      (List.mem_cons.mp hjoin).elim (fun he => by rw [he]; exact hgood) (h.settled join)
    held := fun held hheld =>
      ⟨(h.held held hheld).ahead, (h.held held hheld).soon, (h.held held hheld).waits⟩ }

/-- A join that is held back. -/
theorem Inv.holds (h : Inv cues window) (handed : Handed) (held : Held)
    (hnow : handed.moment = window.clock)
    (hroom : handed.room ≠ none) (hahead : window.clock ≤ held.due)
    (hsoon : held.due ≤ window.clock + watchJoinWaitMs)
    (hwaits : ∀ handed ∈ window.waiting, Waits held handed) :
    Inv { cues with held := some held } { window with waiting := handed :: window.waiting } := by
  refine { h with handed := ?_, held := ?_, idle := fun hnone => by cases hnone }
  · exact fun other hin =>
      (List.mem_cons.mp hin).elim (fun he => by rw [he]; exact hnow.le) (h.handed other)
  · intro other he
    cases he
    refine ⟨hahead, hsoon, fun other hin => ?_⟩
    rcases List.mem_cons.mp hin with rfl | hold
    · exact ⟨hnow ▸ hsoon, hroom⟩
    · exact hwaits other hold

theorem watchersOfMine_seated {state : GatewayState} {watching : List UserId}
    (h : watchersOfMine state = some watching) : state.myVoice ≠ none := by
  intro hnone
  rw [watchersOfMine, mySeat, hnone] at h
  cases h

/-- The frame's own cue plays, or its join is said already or held back. -/
theorem Inv.voiceCue (h : Inv cues window) (hnow : window.clock = now) (frame : ServerFrame)
    (before : GatewayState)
    (voice : Option VoiceCue) :
    Inv (cues.voiceCue frame before window.state voice now).1
      ((cues.voiceCue frame before window.state voice now).2.foldl
        (fun window told => window.tells now told) window) := by
  have hplays : ∀ people, Good window.history ⟨people, now, window.state.myVoice⟩ (.played now) :=
    fun people => ⟨le_rfl, Nat.le_add_right _ _⟩
  unfold WatchCues.voiceCue
  match voice with
  | none => exact h
  | some .voiceJoin => exact h
  | some .voiceMove => exact h
  | some .peerLeave => exact h
  | some .peerJoin =>
    dsimp only
    generalize peopleWhoJoined frame before window.state = joined
    split
    · next hall =>
      obtain ⟨hsome, hrang⟩ := hall
      apply h.settles
      obtain ⟨person, hin⟩ := List.exists_mem_of_ne_nil joined hsome
      have hjust := List.all_eq_true.mp hrang person hin
      obtain ⟨moment, hat, hlate⟩ := (Option.any_eq_true _ _).mp hjust
      have hmark := h.rang person moment hat
      have hpast : moment ≤ now := hnow ▸ h.past _ hmark
      exact ⟨person, hin, hin, moment, hmark, hpast.trans (Nat.le_add_right _ _),
        (of_decide_eq_true hlate).le⟩
    · split
      · exact h.settles (hplays joined)
      · next watching hwatching =>
        have hseated := watchersOfMine_seated hwatching
        split
        · exact h.settles (hplays joined)
        · split
          · next held hheld =>
            have hholds := h.held held hheld
            -- It plays with the join that was held back first, which is no later.
            apply h.holds ⟨joined, now, window.state.myVoice⟩ ⟨held.people ++ joined,
              held.due⟩ hnow.symm hseated
              hholds.ahead hholds.soon
            exact fun handed hin => ⟨(hholds.waits handed hin).due, (hholds.waits handed hin).room⟩
          · next hnone =>
            apply h.holds ⟨joined, now, window.state.myVoice⟩ ⟨joined,
              now + watchJoinWaitMs⟩ hnow.symm hseated
            · show window.clock ≤ now + watchJoinWaitMs
              omega
            · show now + watchJoinWaitMs ≤ window.clock + watchJoinWaitMs
              omega
            · rw [h.idle hnone]
              exact fun handed hin => absurd hin List.not_mem_nil

/-- What a frame does to a join held back. -/
theorem Inv.settleHeld (h : Inv cues window) (hnow : window.clock = now) (started : List UserId)
    (hrang : ∀ held, cues.held = some held → due.any held.people.contains = true →
      ∀ handed ∈ window.waiting, Good window.history handed (.rang due)) :
    Inv (cues.settleHeld started due window.state.myVoice.isSome).1
      ((cues.settleHeld started due window.state.myVoice.isSome).2.foldl
        (fun window told => window.tells now told)
        window) := by
  unfold WatchCues.settleHeld
  split
  · exact h
  · next held hheld =>
    split
    · apply h.letGo hnow
      intro hplay
      have hany : due.any held.people.contains = true := by simpa using hplay
      refine ⟨?_, hrang held hheld hany⟩
      rintro rfl
      exact Bool.noConfusion hany
    · exact h

theorem Inv.swap (h : Inv cues window) (others : WatchCues) :
    Inv cues { window with cues := others } :=
  { h with held := fun held hheld =>
    ⟨(h.held held hheld).ahead, (h.held held hheld).soon, (h.held held hheld).waits⟩ }

/-- What is told of a frame is no change to the state, the cues or the clock. -/
theorem tells_same (done : List Done) (window : Window) (now : ℕ) :
    (done.foldl (fun window told => window.tells now told) window).state = window.state ∧
      (done.foldl (fun window told => window.tells now told) window).cues = window.cues ∧
      (done.foldl (fun window told => window.tells now told) window).clock = window.clock := by
  induction done generalizing window with
  | nil => exact ⟨rfl, rfl, rfl⟩
  | cons told done ih =>
    have hone : (window.tells now told).state = window.state ∧
        (window.tells now told).cues = window.cues ∧
        (window.tells now told).clock = window.clock := by
      match told with
      | .rings _ => exact ⟨rfl, rfl, rfl⟩
      | .letsGo _ _ => exact ⟨rfl, rfl, rfl⟩
      | .plays .peerJoin _ => exact ⟨rfl, rfl, rfl⟩
      | .plays .voiceJoin _ => exact ⟨rfl, rfl, rfl⟩
      | .plays .voiceMove _ => exact ⟨rfl, rfl, rfl⟩
      | .plays .peerLeave _ => exact ⟨rfl, rfl, rfl⟩
      | .quiets _ => exact ⟨rfl, rfl, rfl⟩
      | .holds _ => exact ⟨rfl, rfl, rfl⟩
    obtain ⟨hstate, hcues, hclock⟩ := ih (window.tells now told)
    exact ⟨hstate.trans hone.1, hcues.trans hone.2.1, hclock.trans hone.2.2⟩

/-- A ring is marked for each of the people it rings for, and leaves the joins and the join held
back. -/
theorem ring_marks (cues : WatchCues) (due : List UserId) (now : ℕ) (window : Window) :
    (∀ person ∈ due, ⟨.rang, person, now⟩ ∈
        ((cues.ring due now).2.foldl (fun window told => window.tells now told) window).history) ∧
      ((cues.ring due now).2.foldl (fun window told => window.tells now told) window).waiting =
        window.waiting ∧
      (cues.ring due now).1.held = cues.held := by
  unfold WatchCues.ring
  split
  · next hnone =>
    subst hnone
    exact ⟨fun person hin => absurd hin List.not_mem_nil, rfl, rfl⟩
  · exact ⟨fun person hin => List.mem_append_left _ (List.mem_map.mpr ⟨person, hin, rfl⟩), rfl, rfl⟩

/-- Everything a live frame does, once what it changed is noted. -/
theorem Inv.stages (h : Inv cues window) (hnow : window.clock = now) (hnodup : due.Nodup)
    (hquiet : ∀ person ∈ due, ∀ mark ∈ window.history, mark.person = person →
      mark.moment + peerCueEveryMs ≤ now)
    (hwatch : ∀ person ∈ due, person ∈ window.state.watchers) (started : List UserId)
    (hapiece : ∀ held, cues.held = some held → due.any held.people.contains = true →
      ∀ handed ∈ window.waiting, ∃ person ∈ handed.people, person ∈ due)
    (frame : ServerFrame) (before : GatewayState) (voice : Option VoiceCue)
      {rung settled voiced : WatchCues × List Done}
    (hring : cues.ring due now = rung)
      (hsettle : rung.1.settleHeld started due window.state.myVoice.isSome = settled)
    (hvoice : settled.1.voiceCue frame before window.state voice now = voiced) :
    Inv voiced.1 ((rung.2 ++ settled.2 ++ voiced.2).foldl
      (fun window told => window.tells now told) window) := by
  have hrung := h.ring hnow hnodup hquiet hwatch
  obtain ⟨hmarks, hwaiting, hheld⟩ := ring_marks cues due now window
  obtain ⟨hstate, -, hclock⟩ := tells_same (cues.ring due now).2 window now
  rw [List.foldl_append, List.foldl_append]
  rw [hring] at hrung hmarks hwaiting hheld hstate hclock
  generalize rung.2.foldl (fun window told => window.tells now told) window =
    first at hrung hmarks hwaiting hstate hclock ⊢
  rw [← hstate] at hsettle
  have hrang : ∀ held, rung.1.held = some held → due.any held.people.contains = true →
      ∀ handed ∈ first.waiting, Good first.history handed (.rang due) := by
    intro held hheld' hany handed hin
    obtain ⟨person, hperson, hdue⟩ := hapiece held (hheld ▸ hheld') hany handed (hwaiting ▸ hin)
    -- It waits still, so the ring for it is no later than its wait.
    have hholds := hrung.held held hheld'
    have hbefore : handed.moment ≤ now := (hclock.trans hnow) ▸ hrung.handed handed hin
    have hsoon : now ≤ handed.moment + watchJoinWaitMs :=
      ((hclock.trans hnow) ▸ hholds.ahead : now ≤ held.due).trans (hholds.waits handed hin).due
    exact ⟨person, hperson, hdue, now, hmarks person hdue, hsoon,
      hbefore.trans (Nat.le_add_right _ _)⟩
  have hsettled := hrung.settleHeld (hclock.trans hnow) started hrang
  obtain ⟨hstate', -, hclock'⟩ := tells_same settled.2 first now
  rw [hsettle] at hsettled
  generalize settled.2.foldl (fun window told => window.tells now told) first =
    second at hsettled hstate' hclock' ⊢
  rw [← hstate, ← hstate'] at hvoice
  have hvoiced := hsettled.voiceCue ((hclock'.trans hclock).trans hnow) frame before voice
  rw [hvoice] at hvoiced
  exact hvoiced

end Stages

section Runs
variable {window window' : Window} {now : ℕ}

/-- What one frame does keeps what is kept, if it is live and clear or from a replay. -/
theorem Inv.hears (h : Inv window.cues window) (hnow : window.clock ≤ now)
    (hdue : ∀ held, window.cues.held = some held → now ≤ held.due) (frame : ServerFrame)
    (voice : Option VoiceCue)
    (replayed : Bool) (hclear : replayed = false → Clear window frame now) :
    Inv (window.hears frame voice replayed now).cues (window.hears frame voice replayed now) := by
  unfold Window.hears
  dsimp only
  rw [(tells_same _ _ _).2.1]
  have hnoted := @Inv.noted window frame now h hnow hdue
  generalize hall : window.cues.hear frame window.state (apply window.state frame)
    (if replayed = true then none else voice)
    (!replayed) now = heard
  unfold WatchCues.hear at hall
  dsimp only at hall
  -- A replayed frame only notes who stopped and who started.
  cases replayed with
  | true =>
    rw [← hall]
    exact hnoted.swap _
  | false =>
    have hframe := hclear rfl
    generalize hstarted :
      (watchChange frame window.state (apply window.state frame)).1 = started at hall hnoted
    generalize hstopped :
      (watchChange frame window.state (apply window.state frame)).2 = stopped at hall hnoted
    have hnot : ∀ person ∈ started, person ∉ stopped := by
      intro person hin
      rw [← hstopped]
      exact stopped_not_started (hstarted ▸ hin)
    have hdues : ∀ person, person ∈ started.filter ((window.cues.noteStopped stopped now).due now) ↔
        person ∈ started ∧ window.cues.due now person = true := by
      intro person
      rw [List.mem_filter]
      exact and_congr_right fun hin => by rw [due_noted (hnot person hin)]
    have hnodup : (started.filter ((window.cues.noteStopped stopped now).due now)).Nodup :=
      (hstarted ▸ nodup_started).filter _
    generalize started.filter ((window.cues.noteStopped stopped now).due now) =
      due at hall hdues hnodup
    simp only [Bool.not_false, if_true] at hall
    rw [← hall]
    apply (hnoted.swap _).stages rfl hnodup ?_ ?_ started ?_ frame window.state voice rfl rfl rfl
    -- Whoever is due was left alone for a minute and watches now, and by the condition each join
    -- held back with one of theirs has somebody of its own.
    · intro person hin mark hmark hperson
      obtain ⟨hstart, hdue⟩ := (hdues person).mp hin
      exact h.quiet hframe (hstarted ▸ hstart) hdue hmark hperson
    · exact fun person hin => (mem_started (hstarted ▸ ((hdues person).mp hin).1)).2
    · intro held hheld hany handed hin
      obtain ⟨person, hdue, hmember⟩ := List.any_eq_true.mp hany
      obtain ⟨hstart, hlong⟩ := (hdues person).mp hdue
      obtain ⟨other, hother, hin', hlong'⟩ := hframe.apiece held hheld
        ⟨person, hstarted ▸ hstart, List.contains_iff_mem.mp hmember, hlong⟩ handed hin
      exact ⟨other, hother, (hdues other).mpr ⟨hstarted ▸ hin', hlong'⟩⟩

theorem Inv.step (h : Inv window.cues window) {event : Event} (hallowed : Allowed window event)
    (hs : window.step event = some window') : Inv window'.cues window' := by
  unfold Window.step at hs
  split at hs
  · cases hs
  · next hguard =>
    -- Moments don't go back, and none passes the one a join held back is due at.
    rw [not_or] at hguard
    have hnow : window.clock ≤ event.now := not_lt.mp hguard.1
    have hdue : ∀ held, window.cues.held = some held → event.now ≤ held.due := by
      intro held hheld
      have hnone := hguard.2
      rw [hheld, Option.any_some, decide_eq_true_eq] at hnone
      exact not_lt.mp hnone
    cases event with
    | frame frame voice replayed now =>
      cases hs
      apply h.hears hnow hdue
      rintro rfl
      exact hallowed
    | seat room now =>
      cases hs
      exact h.becomes _ hnow hdue
    | closes now =>
      cases hs
      exact h.becomes _ hnow hdue
    | timer now =>
      dsimp only at hs
      split at hs
      · cases hs
        rw [(tells_same _ _ _).2.1]
        have hlater : Inv window.cues { window with
            cues := (window.cues.timer window.state.myVoice.isSome).1, clock := now } :=
          { h with
            past := fun mark hmark => (h.past mark hmark).trans hnow
            handed := fun handed hin => (h.handed handed hin).trans hnow
            held := fun held hheld => ⟨hdue held hheld,
              (h.held held hheld).soon.trans (Nat.add_le_add_right hnow _),
              (h.held held hheld).waits⟩ }
        exact hlater.letGo rfl true (fun hplay => Bool.noConfusion hplay)
      · cases hs

theorem Inv.keeps (h : Inv window.cues window) : Keeps window := by
  constructor
  case minute => exact h.minute
  case settled => exact h.settled
  case waiting =>
    intro handed hin
    cases hheld : window.cues.held with
    | none =>
      rw [h.idle hheld] at hin
      exact absurd hin List.not_mem_nil
    | some held =>
      have hholds := h.held held hheld
      exact hholds.ahead.trans (hholds.waits handed hin).due

/-- It hands over a voice join. -/
def Event.handsJoin : Event → Bool
  | .frame _ (some .peerJoin) false _ => true
  | _ => false

/-- It is what comes of a voice join as it is handed over. -/
def Done.ofJoin : Done → Bool
  | .plays .peerJoin _ | .quiets _ | .holds _ => true
  | _ => false

/-- How many joins wait or are settled. -/
def Window.joins (window : Window) : ℕ := window.waiting.length + window.settled.length

theorem tells_joins (done : List Done) (window : Window) (now : ℕ) :
    (done.foldl (fun window told => window.tells now told) window).joins =
    window.joins + done.countP Done.ofJoin := by
  induction done generalizing window with
  | nil => rfl
  | cons told done ih =>
    have hone : (window.tells now told).joins = window.joins + if told.ofJoin then 1 else 0 := by
      match told with
      | .rings _ => rfl
      | .letsGo _ _ => simp [Window.tells, Window.joins, Done.ofJoin]
      | .plays .peerJoin _ => rfl
      | .plays .voiceJoin _ => rfl
      | .plays .voiceMove _ => rfl
      | .plays .peerLeave _ => rfl
      | .quiets _ => rfl
      | .holds _ =>
        simp only [Window.tells, Window.joins, Done.ofJoin, List.length_cons, if_true]
        omega
    rw [List.foldl_cons, ih, hone, List.countP_cons]
    omega

theorem voiceCue_joins (cues : WatchCues) (frame : ServerFrame) (before after : GatewayState)
    (voice : Option VoiceCue) (now : ℕ) :
    (cues.voiceCue frame before after voice now).2.countP Done.ofJoin = if voice =
      some .peerJoin then 1 else 0 := by
  unfold WatchCues.voiceCue
  match voice with
  | none => rfl
  | some .voiceJoin => rfl
  | some .voiceMove => rfl
  | some .peerLeave => rfl
  | some .peerJoin =>
    dsimp only
    split
    · rfl
    · split
      · rfl
      · split
        · rfl
        · split <;> rfl

theorem letGo_joins (cues : WatchCues) (play stillThere : Bool) (people : List UserId) :
    (cues.letGo play stillThere people).2.countP Done.ofJoin = 0 := by
  unfold WatchCues.letGo
  split <;> rfl

theorem hear_joins (cues : WatchCues) (frame : ServerFrame) (before after : GatewayState)
    (voice : Option VoiceCue)
    (live : Bool) (now : ℕ) : (cues.hear frame before after voice live now).2.countP Done.ofJoin =
      if live = true ∧ voice = some .peerJoin then 1 else 0 := by
  have hring :
      ∀ (cues : WatchCues) (due : List UserId), (cues.ring due now).2.countP Done.ofJoin = 0 := by
    intro cues due
    unfold WatchCues.ring
    split <;> rfl
  have hsettle : ∀ (cues : WatchCues) (started due : List UserId) (stillThere : Bool),
      (cues.settleHeld started due stillThere).2.countP Done.ofJoin = 0 := by
    intro cues started due stillThere
    unfold WatchCues.settleHeld
    split
    · rfl
    · split
      · exact letGo_joins _ _ _ _
      · rfl
  unfold WatchCues.hear
  cases live with
  | false => rfl
  | true =>
    dsimp only
    rw [if_pos rfl, List.countP_append, List.countP_append, hring, hsettle, voiceCue_joins]
    simp

/-- Each join that is handed over waits or is settled, once. -/
theorem step_joins {event : Event} (hs : window.step event = some window') :
    window'.joins = window.joins + if event.handsJoin then 1 else 0 := by
  unfold Window.step at hs
  split at hs
  · cases hs
  · cases event with
    | frame frame voice replayed now =>
      cases hs
      unfold Window.hears
      dsimp only
      rw [tells_joins, hear_joins]
      cases replayed with
      | true =>
        simp [Window.joins, Event.handsJoin]
      | false =>
        match voice with
        | none => simp [Window.joins, Event.handsJoin]
        | some .peerJoin => simp [Window.joins, Event.handsJoin]
        | some .peerLeave => simp [Window.joins, Event.handsJoin]
        | some .voiceJoin => simp [Window.joins, Event.handsJoin]
        | some .voiceMove => simp [Window.joins, Event.handsJoin]
    | seat room now =>
      cases hs
      rfl
    | closes now =>
      cases hs
      rfl
    | timer now =>
      dsimp only at hs
      split at hs
      · cases hs
        rw [tells_joins, WatchCues.timer, letGo_joins]
        rfl
      · cases hs

theorem run_joins {events : List Event} (hr : machine.runFrom window events = some window') :
    window'.joins = window.joins + events.countP Event.handsJoin := by
  induction events generalizing window with
  | nil =>
    cases hr
    rfl
  | cons event events ih =>
    obtain ⟨next, hone, hrest⟩ := Option.bind_eq_some_iff.mp hr
    rw [ih hrest, step_joins hone, List.countP_cons]
    omega

/-- In every run whose live frames are clear, every state keeps the minute and the wait, and each
join that was handed over waits or is settled; and a frame of a replay is never heard. -/
theorem cues_keep (events : List Event) (hallowed : machine.Meets Allowed events) :
    (∀ window, machine.run events = some window →
      Keeps window ∧
        window.waiting.length + window.settled.length = events.countP Event.handsJoin) ∧
    ∀ (cues : WatchCues) (frame : ServerFrame) (before after : GatewayState)
      (voice : Option VoiceCue) (now : ℕ),
      (cues.hear frame before after voice false now).2 = [] := by
  have hstart : Inv machine.start.cues machine.start := by
    refine ⟨List.Pairwise.nil, ?_, ?_, ?_, ?_, ?_, ?_, fun _ => rfl⟩
    · exact fun mark hmark => absurd hmark List.not_mem_nil
    · exact fun mark hmark => absurd hmark List.not_mem_nil
    · intro person moment hat
      exact absurd hat (by simp [machine, WatchCues.new])
    · exact fun join hjoin => absurd hjoin List.not_mem_nil
    · exact fun handed hin => absurd hin List.not_mem_nil
    · exact fun held hheld => by cases hheld
  constructor
  · intro window hr
    constructor
    · exact (machine.invariant_of_meets (I := fun window => Inv window.cues window) hstart
        (fun window event window' h hok hs => h.step hok hs) hallowed hr).keeps
    · exact (run_joins hr).trans (Nat.zero_add _)
  · exact fun cues frame before after voice now => rfl

end Runs

instance (window : Window) (frame : ServerFrame) (now : ℕ) : Decidable (Clear window frame now) :=
  decidable_of_iff
    ((∀ person ∈ (watchChange frame window.state (apply window.state frame)).1,
      ∀ mark ∈ window.history,
        mark.what = .unseen → mark.person = person → mark.moment + peerCueEveryMs ≤ now) ∧
      ∀ held ∈ window.cues.held,
        (∃ person ∈ (watchChange frame window.state (apply window.state frame)).1,
          person ∈ held.people ∧ window.cues.due now person = true) →
        ∀ handed ∈ window.waiting, ∃ person ∈ handed.people,
          person ∈ (watchChange frame window.state (apply window.state frame)).1 ∧
            window.cues.due now person = true)
    ⟨fun h => ⟨h.1, h.2⟩, fun h => ⟨h.seen, h.apiece⟩⟩

instance (window : Window) (event : Event) : Decidable (Allowed window event) := by
  unfold Allowed
  split <;> infer_instance

/-- You, and you sharing; Eli, and Eli watching you; and Dex. -/
def me : VoicePeer := ⟨1, 100, false, none⟩
def sharing : VoicePeer := ⟨1, 100, true, none⟩
def eli : VoicePeer := ⟨2, 7, false, none⟩
def eliWatching : VoicePeer := ⟨2, 7, false, some 1⟩
def dex : VoicePeer := ⟨3, 8, false, none⟩

/-- You share, Eli joins voice, and a second later watches. -/
def watched : List Event :=
  [.frame (.ready 1 []) none false 0, .seat (some 5) 10,
    .frame (.voiceState 5 [me]) (some .voiceJoin) false 20, .frame (.voiceState 5 [sharing]) none
      false 30, .frame (.voiceState 5 [sharing, eli]) (some .peerJoin) false 1000,
    .frame (.voiceState 5 [sharing, eliWatching]) none false 2000]

/-- You leave voice, join it again and share again, and Eli watches again. -/
def returning : List Event :=
  [.seat none 3000, .frame (.voiceState 5 [eli]) none false 3100, .seat (some 5) 4000,
    .frame (.voiceState 5 [eli, me]) (some .voiceJoin) false 4100,
    .frame (.voiceState 5 [eli, sharing]) none false 5000,
    .frame (.voiceState 5 [eliWatching, sharing]) none false 6000]

/-- Dex joins voice while Eli's join is held back. -/
def joining : List Event :=
  watched.take 5 ++ [.frame (.voiceState 5 [sharing, eli, dex]) (some .peerJoin) false 1500,
    .frame (.voiceState 5 [sharing, eliWatching, dex]) none false 2000]

/-- Eli's join is left to the ring for Eli. -/
theorem cues_keep_watched : ∃ window, machine.run watched = some window ∧
    window.settled = [(⟨[7], 1000, some 5⟩, .rang [7])] ∧ Keeps window :=
  ⟨_, rfl, by decide +kernel, ((cues_keep watched (by decide +kernel)).1 _ rfl).1⟩

/-- It rings for Eli twice in four seconds. And Dex's join is left to the ring for Eli. -/
theorem rings_again :
    (∃ window, machine.run (watched ++ returning) = some window ∧ ¬ Keeps window) ∧
      ∃ window, machine.run joining = some window ∧ ¬ Keeps window := by
  constructor
  · refine ⟨_, rfl, fun h => absurd h.minute ?_⟩
    decide +kernel
  · refine ⟨_, rfl, fun h => ?_⟩
    obtain ⟨person, hin, hrang, -⟩ := h.settled (⟨[8], 1500, some 5⟩, .rang [7]) (by decide +kernel)
    have hdex : person = 8 := List.mem_singleton.mp hin
    have heli : person = 7 := List.mem_singleton.mp hrang
    exact absurd (hdex.symm.trans heli) (by decide)

end Linger.SoundEvents
