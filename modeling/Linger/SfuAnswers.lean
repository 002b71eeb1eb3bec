import Linger.SfuBits

/-! Answers that don't apply: what one leaves behind, and when a client still comes to
hear its room after it. -/
namespace Linger.Sfu
open StepMachine

namespace Client

/-- Every m-line a client's lines are on is agreed, or added by the offer that is out. -/
structure Applied (c : Client) : Prop where
  negotiating : ∀ out ∈ c.outs, ∀ mid, out.state = .negotiating mid →
    ∃ pending, c.pending = some pending ∧ mid ∈ pending.added
  opened : ∀ out ∈ c.outs, ∀ mid, out.state = .open mid → mid ∈ c.rtc.lines
  mic : ∀ mid, c.mic = some mid → mid ∈ c.named
  offered : ∀ offer ∈ c.offers, ∀ track ∈ offer.tracks, track.mid ∈ offer.sdp

/-- A client that has offered its microphone, and with nothing out everybody. -/
structure Ready (c : Client) : Prop extends c.Applied where
  hasMic : c.mic.isSome = true
  settled : c.pending = none → ∀ out ∈ c.outs, out.isToOpen = false

variable {c : Client} {session : SessionId} {bits n : ℕ} {draw : ℕ → ℕ → Mid}

namespace Applied

theorem set_bits (h : c.Applied) (bits : ℕ) : ({ c with bits := bits } : Client).Applied :=
  ⟨h.negotiating, h.opened, h.mic, h.offered⟩

theorem wants (h : c.Applied) (session : SessionId) : (c.wants session).Applied := by
  have hout {out : Out} (hmem : out ∈ (c.wants session).outs) :
      out ∈ c.outs ∨ out = ⟨session, .toOpen⟩ := by
    simpa [Client.wants] using hmem
  refine ⟨fun out hmem mid hs => ?_, fun out hmem mid hs => ?_, h.mic, h.offered⟩
  · rcases hout hmem with hold | rfl
    · exact h.negotiating out hold mid hs
    · cases hs
  · rcases hout hmem with hold | rfl
    · exact h.opened out hold mid hs
    · cases hs

theorem forget (h : c.Applied) (session : SessionId) : (c.forget session).Applied := by
  refine ⟨fun out hmem mid hs => ?_, fun out hmem mid hs => ?_, h.mic, h.offered⟩
  · rcases mem_forget hmem with ⟨hold, -⟩ | ⟨mid', rfl, -⟩
    · exact h.negotiating out hold mid hs
    · cases hs
  · rcases mem_forget hmem with ⟨hold, -⟩ | ⟨mid', rfl, -⟩
    · exact h.opened out hold mid hs
    · cases hs

theorem new {room : RoomId} {others : List SessionId} :
    (Client.new session room others bits).Applied := by
  have hout {out : Out} (hmem : out ∈ (Client.new session room others bits).outs) :
      out.state = .toOpen := by
    obtain ⟨s, -, rfl⟩ := List.mem_map.mp hmem
    rfl
  refine ⟨fun out hmem mid hs => ?_, fun out hmem mid hs => ?_, fun mid hm => (by cases hm),
    fun offer ho => by cases ho⟩
  · rw [hout hmem] at hs
    cases hs
  · rw [hout hmem] at hs
    cases hs

theorem offer (h : c.Applied) {d : ℕ → Mid} (hp : c.pending = none) : (c.offer d).Applied := by
  have hlines : c.named = c.rtc.lines := named_of_none hp
  have hdrawn (i : ℕ) (hi : i < c.micLines + c.outs.countP Out.isToOpen) : d i ∈ c.drawn d :=
    List.mem_map_of_mem (List.mem_range.mpr hi)
  -- nothing was in an offer before, so what is negotiating is what was drawn
  have hnegotiating (out : Out) (hmem : out ∈ offerOuts d c.micLines c.outs) (mid : Mid)
      (hs : out.state = .negotiating mid) : mid ∈ c.drawn d := by
    rcases mem_offerOuts hmem with ⟨i, hi, hstate, -⟩ | ⟨mid', hstate, -⟩ | ⟨hold, -⟩
    · rw [hstate] at hs
      cases hs
      exact hdrawn _ (by omega)
    · rw [hstate] at hs
      cases hs
    · obtain ⟨pending, hsome, -⟩ := h.negotiating out hold mid hs
      rw [hp] at hsome
      cases hsome
  have hopened (out : Out) (hmem : out ∈ offerOuts d c.micLines c.outs) (mid : Mid)
      (hs : out.state = .open mid) : mid ∈ c.rtc.lines := by
    rcases mem_offerOuts hmem with ⟨i, hi, hstate, -⟩ | ⟨mid', hstate, -⟩ | ⟨hold, -⟩
    · rw [hstate] at hs
      cases hs
    · rw [hstate] at hs
      cases hs
    · exact h.opened out hold mid hs
  refine ⟨fun out hmem mid hs => ⟨_, rfl, hnegotiating out hmem mid hs⟩, hopened,
    fun mid hm => ?_, fun offer ho track ht => ?_⟩
  · simp only [Client.named, Client.offer, Option.elim_some]
    cases hmic : c.mic with
    | none =>
      simp only [Client.offer, hmic, Option.isNone_none, if_true, Option.some.injEq] at hm
      have hone : c.micLines = 1 := by simp [micLines, hmic]
      exact List.mem_append_right _ (hm ▸ hdrawn 0 (by omega))
    | some mid' =>
      simp only [Client.offer, hmic, Option.isNone_some, Bool.false_eq_true, if_false] at hm
      exact List.mem_append_left _ (hlines ▸ h.mic mid (hmic.trans hm))
  · rcases List.mem_append.mp ho with hold | hnew
    · exact h.offered offer hold track ht
    · rw [List.mem_singleton.mp hnew] at ht ⊢
      obtain ⟨⟨origin, state⟩, hmem, htrack⟩ := List.mem_filterMap.mp ht
      cases state with
      | negotiating mid =>
        cases htrack
        exact List.mem_append_right _ (hnegotiating _ hmem mid rfl)
      | «open» mid =>
        cases htrack
        exact List.mem_append_left _ (hopened _ hmem mid rfl)
      | toOpen | toStop | negotiatingStop => cases htrack

theorem accept (h : c.Applied) {pending : SdpPendingOffer} (hp : c.pending = some pending) :
    ({ c with
      pending := none
      rtc := ⟨c.rtc.lines ++ pending.added⟩
      outs := c.outs.filterMap Out.accepted
      answered := c.answered + 1 } : Client).Applied := by
  refine ⟨fun out hmem mid hs => ?_, fun out hmem mid hs => ?_, fun mid hm => ?_, h.offered⟩
  · obtain ⟨⟨origin, state⟩, -, hacc⟩ := List.mem_filterMap.mp hmem
    cases state <;> cases hacc <;> cases hs
  · obtain ⟨⟨origin, state⟩, hold, hacc⟩ := List.mem_filterMap.mp hmem
    cases state with
    | negotiating mid' =>
      cases hacc
      cases hs
      obtain ⟨pending', hp', hadded⟩ := h.negotiating _ hold mid rfl
      cases hp.symm.trans hp'
      exact List.mem_append_right _ hadded
    | «open» mid' =>
      cases hacc
      cases hs
      exact List.mem_append_left _ (h.opened _ hold mid rfl)
    | toOpen | toStop =>
      cases hacc
      cases hs
    | negotiatingStop => cases hacc
  · have hnamed := h.mic mid hm
    simpa [Client.named, hp] using hnamed

/-- Whatever changed is offered, unless an offer is out. -/
theorem negotiate (h : c.Applied) (ha : Apart draw n) (hn : c.fresh ≤ n)
    (hmic : c.mic.isSome = true ∨ c.pending = none) : (c.negotiate draw).Ready := by
  rcases negotiate_apart ha hn with ⟨he, hkeep⟩ | ⟨attempt, -, hp, -, -, he⟩
  · rw [he]
    refine ⟨h, ?_, fun hp => ?_⟩
    · rcases hmic with hmic | hp
      · exact hmic
      · rw [hp] at hkeep
        exact (hasChanges_eq_false.mp (hkeep.resolve_left (by simp))).1
    · rw [hp] at hkeep
      intro out hout
      exact ((hasChanges_eq_false.mp (hkeep.resolve_left (by simp))).2 out hout).1
  · rw [he]
    refine ⟨h.offer hp, ?_, fun hn => by cases hn⟩
    cases hmic : c.mic <;> simp [Client.offer, hmic]

end Applied

/-- Everybody it should hear is on an open line, and so is its microphone. -/
def Answered (c : Client) : Prop :=
  (∀ out ∈ c.outs, out.wanted.isSome = true → ∃ mid, out.state = .open mid) ∧
  ∃ mid ∈ c.rtc.lines, c.mic = some mid

instance (out : Out) : Decidable (∃ mid, out.state = .open mid) :=
  match out with
  | ⟨_, .open mid⟩ => isTrue ⟨mid, rfl⟩
  | ⟨_, .toOpen⟩ => isFalse (by rintro ⟨_, h⟩; cases h)
  | ⟨_, .negotiating _⟩ => isFalse (by rintro ⟨_, h⟩; cases h)
  | ⟨_, .toStop _⟩ => isFalse (by rintro ⟨_, h⟩; cases h)
  | ⟨_, .negotiatingStop _⟩ => isFalse (by rintro ⟨_, h⟩; cases h)

instance (c : Client) : Decidable c.Answered :=
  inferInstanceAs (Decidable ((∀ out ∈ c.outs, _ → _) ∧ ∃ mid ∈ c.rtc.lines, _ = _))

/-- A bad answer leaves a client as it was but for the offer, which loses nothing that it
only stopped lines. -/
theorem Ready.bad (h : c.Ready) (hlost : c.Answered) :
    ({ c with pending := none } : Client).Ready := by
  obtain ⟨hout, mic, hline, hmic⟩ := hlost
  refine ⟨⟨fun out hmem mid hs => ?_, h.opened, fun mid hm => ?_, h.offered⟩, h.hasMic,
    fun _ out hmem => ?_⟩
  · obtain ⟨mid', hs'⟩ := hout out hmem (by simp [Out.wanted, hs])
    rw [hs] at hs'
    cases hs'
  · cases hmic.symm.trans hm
    rw [named_of_none rfl]
    exact hline
  · by_contra hopen
    have hstate : out.state = .toOpen := by simpa [Out.isToOpen] using hopen
    obtain ⟨mid, hs⟩ := hout out hmem (by simp [Out.wanted, hstate])
    rw [hstate] at hs
    cases hs

/-- With nothing out everybody it should hear is on a line that was agreed. -/
theorem Ready.answered (h : c.Ready) (hp : c.pending = none) : c.Answered := by
  refine ⟨fun out hmem hw => ?_, ?_⟩
  · obtain ⟨origin, state⟩ := out
    cases state with
    | «open» mid => exact ⟨mid, rfl⟩
    | toOpen => cases h.settled hp _ hmem
    | negotiating mid =>
      obtain ⟨pending, hsome, -⟩ := h.negotiating _ hmem mid rfl
      rw [hp] at hsome
      cases hsome
    | toStop | negotiatingStop => cases hw
  · obtain ⟨mid, hmid⟩ := Option.isSome_iff_exists.mp h.hasMic
    exact ⟨mid, named_of_none hp ▸ h.mic mid hmid, hmid⟩

end Client

/-- An answer that doesn't apply comes to a client that has no offer out, or whose offer
neither adds a line it still needs nor keeps one waiting. -/
def LosesNothing (hub : Hub) (act : Act) : Prop :=
  match act.command with
  | .answer session text => text = .applies ∨
    ∀ c ∈ hub.clients, c.session = session → c.pending.isSome = true → c.Answered
  | _ => True

instance (hub : Hub) (act : Act) : Decidable (LosesNothing hub act) :=
  match act with
  | ⟨.answer session text, _, _⟩ => inferInstanceAs (Decidable (text = .applies ∨
      ∀ c ∈ hub.clients, c.session = session → c.pending.isSome = true → c.Answered))
  | ⟨.join _ _, _, _⟩ => isTrue trivial
  | ⟨.leave _, _, _⟩ => isTrue trivial

/-- Draws can be offered, and bad answers come when they lose nothing. -/
def AnswersWell (hub : Hub) (act : Act) : Prop := DrawsApart hub act ∧ LosesNothing hub act

instance (hub : Hub) (act : Act) : Decidable (AnswersWell hub act) :=
  inferInstanceAs (Decidable (_ ∧ _))

section Step
variable {hub : Hub} {session : SessionId} {room : RoomId} {draw coming : Draws} {n : ℕ}
  {text : Answer}

theorem ready_remove (hs : Seated hub) (h : ∀ c ∈ hub.clients, c.Ready)
    (ha : ∀ c ∈ hub.clients, Apart (draw c.session) (hub.clients.length + 1)) :
    ∀ c ∈ (hub.remove session draw).clients, c.Ready := by
  refine hs.remove_forall (fun c hc _ _ => h c hc) fun gone c _ hc _ _ => ?_
  exact (((h c hc).toApplied.set_bits _).forget session).negotiate (ha c hc)
    (hs.fresh_forget hc _) (.inl (h c hc).hasMic)

theorem ready_enter (hs : Seated hub) (h : ∀ c ∈ hub.clients, c.Ready)
    (ha : ∀ s ∈ session :: hub.clients.map Client.session, Apart (draw s) n)
    (hn : hub.clients.length + 1 ≤ n) :
    ∀ c ∈ (hub.enter session room draw).clients, c.Ready := by
  refine Seated.enter_forall (fun c hc _ => h c hc) (fun c hc _ => ?_) ?_
  · exact (((h c hc).toApplied.set_bits _).wants session).negotiate
      (ha c.session (List.mem_cons_of_mem _ (List.mem_map_of_mem hc)))
      ((hs.fresh_wants hc _).trans hn) (.inl (h c hc).hasMic)
  · exact Client.Applied.new.negotiate (ha session List.mem_cons_self)
      ((Seated.fresh_new hub session room _).trans hn) (.inr rfl)

theorem ready_answer (hs : Seated hub) (h : ∀ c ∈ hub.clients, c.Ready)
    (ha : ∀ c ∈ hub.clients, Apart (draw c.session) (hub.clients.length + 1))
    (hok : text = .applies ∨
      ∀ c ∈ hub.clients, c.session = session → c.pending.isSome = true → c.Answered) :
    ∀ c ∈ (hub.answer session text draw).clients, c.Ready := by
  intro c hc
  rcases Hub.mem_answer hc with hold | ⟨c₀, hc₀, hsession, hans⟩
  · exact h c hold
  · rcases c₀.accept_cases text with ⟨pending, hp, -, he⟩ | ⟨hbad, error, he⟩
    · rw [he] at hans
      rcases hans with ⟨-, rfl⟩ | ⟨⟨_, he⟩, -⟩
      · exact ((h c₀ hc₀).toApplied.accept hp).negotiate (ha c₀ hc₀)
          (hs.fresh_accepted hc₀ rfl) (.inr rfl)
      · cases he
    · rw [he] at hans
      rcases hans with ⟨he, -⟩ | ⟨-, rfl⟩
      · cases he
      · cases hp : c₀.pending with
        | none => exact (h c₀ hc₀).bad ((h c₀ hc₀).answered hp)
        | some pending =>
          rcases hbad with hnone | hne
          · rw [hp] at hnone
            cases hnone
          · have hlost := hok.resolve_left hne c₀ hc₀ hsession (by simp [hp])
            exact (h c₀ hc₀).bad hlost

theorem ready_step (hs : Seated hub) (h : ∀ c ∈ hub.clients, c.Ready) {act : Act}
    (hok : AnswersWell hub act) : ∀ c ∈ (step hub act).clients, c.Ready := by
  obtain ⟨command, going, coming⟩ := act
  obtain ⟨hapart, hloses⟩ := hok
  have hof (c : Client) (hc : c ∈ hub.clients) := hapart c.session
    (List.mem_cons_of_mem _ (List.mem_map_of_mem hc))
  cases command with
  | leave session => exact ready_remove hs h fun c hc => (hof c hc).1
  | answer session text => exact ready_answer hs h (fun c hc => (hof c hc).2) hloses
  | join session room =>
    have hgone : ∀ c ∈ (hub.remove session going).clients, c.Ready :=
      ready_remove hs h fun c hc => (hof c hc).1
    change ∀ c ∈ (if (hub.remove session going).usable then _ else _ : Hub).clients, c.Ready
    split
    · refine ready_enter hs.remove hgone (fun s hsession => ?_)
        (Nat.succ_le_succ length_remove_le)
      exact (hapart s (sessions_remove hsession)).2
    · exact hgone

end Step

/-- Everybody else in its room is on a line of its connection, and its microphone is. -/
def Hub.Hears (hub : Hub) (c : Client) : Prop :=
  (∀ s, s ≠ c.session → (∃ d ∈ hub.clients, d.session = s ∧ d.room = c.room) →
    ∃ mid ∈ c.rtc.lines, c.outFor s = some mid) ∧
  ∃ mid ∈ c.rtc.lines, c.mic = some mid

section Hears
variable {hub : Hub} {c : Client}

/-- A client hears its room just when every line it wants is open. -/
theorem hears_iff {roster : List (SessionId × RoomId)} (hroster : hub.roster = roster)
    (hnodup : (roster.map Prod.fst).Nodup)
    (hwanted : c.outs.filterMap Out.wanted = others roster c.room c.session)
    (h : c.Applied) : hub.Hears c ↔ c.Answered := by
  have hlive : (c.outs.filterMap Out.wanted).Nodup := hwanted ▸ others_nodup hnodup
  have hthere (s : SessionId) : s ∈ c.outs.filterMap Out.wanted ↔
      s ≠ c.session ∧ ∃ d ∈ hub.clients, d.session = s ∧ d.room = c.room := by
    rw [hwanted, mem_others, ← hroster, Hub.roster, and_comm]
    simp [Prod.ext_iff]
  have horigin {out : Out} (hw : out.wanted.isSome = true) : out.wanted = some out.origin := by
    obtain ⟨origin, state⟩ := out
    cases state with
    | toOpen | negotiating | «open» => rfl
    | toStop | negotiatingStop => cases hw
  refine and_congr ⟨fun hall out hmem hw => ?_, fun hall s hne hin => ?_⟩ Iff.rfl
  · obtain ⟨hne, hin⟩ := (hthere out.origin).mp (List.mem_filterMap.mpr ⟨out, hmem, horigin hw⟩)
    obtain ⟨mid, -, ho⟩ := hall out.origin hne hin
    have heq := inj_of_filterMap_nodup hlive hmem (mem_of_outFor ho) (horigin hw) rfl
    exact ⟨mid, by rw [heq]⟩
  · obtain ⟨out, hmem, hw⟩ := List.mem_filterMap.mp ((hthere s).mpr ⟨hne, hin⟩)
    obtain ⟨mid, hstate⟩ := hall out hmem (by rw [hw]; rfl)
    have hs : out.origin = s := Option.some.inj ((horigin (by rw [hw]; rfl)).symm.trans hw)
    have hout : (⟨s, .open mid⟩ : Out) ∈ c.outs := by
      obtain ⟨origin, state⟩ := out
      cases hs
      cases hstate
      exact hmem
    exact ⟨mid, h.opened _ hout mid rfl, outFor_of_mem hlive hout⟩

theorem Seated.hears_iff (hs : Seated hub) (hc : c ∈ hub.clients) (h : c.Applied) :
    hub.Hears c ↔ c.Answered :=
  Sfu.hears_iff rfl hs.once (hs.wanted c hc) h

/-- A bad answer that comes while somebody still needs a line of the offer that is out, or
waits for the next, leaves a client with no offer out that doesn't hear its room. -/
theorem bad_answer_loses (hs : Seated hub) (hc : c ∈ hub.clients) (h : c.Applied)
    (hlost : ¬ c.Answered) {text : Answer} (hbad : text ≠ .applies) (draw : Draws) :
    ∃ c' ∈ (hub.answer c.session text draw).clients, c'.session = c.session ∧
      c'.pending = none ∧ ¬ (hub.answer c.session text draw).Hears c' := by
  obtain ⟨error, ha⟩ : ∃ error, c.accept text = ({ c with pending := none }, .error error) := by
    rcases c.accept_cases text with ⟨-, -, happlies, -⟩ | ⟨-, herror⟩
    · exact absurd happlies hbad
    · exact herror
  have hsame (d : Client) (hd : d ∈ hub.clients) (hsession : d.session = c.session) : d = c := by
    have hnodup : (hub.clients.map Client.session).Nodup := by
      have := hs.once
      rwa [Hub.roster, List.map_map] at this
    exact List.inj_on_of_nodup_map hnodup hd hc hsession
  have hmem : ({ c with pending := none } : Client) ∈ (hub.answer c.session text draw).clients := by
    refine mem_replaceF_of_mem hc (by rw [if_pos rfl, ha]) fun d hd hsome => hsame d hd ?_
    by_contra hne
    rw [if_neg hne] at hsome
    cases hsome
  refine ⟨_, hmem, rfl, rfl, fun hhears => hlost ?_⟩
  -- nothing that is open or agreed is in the offer that was dropped
  have hanswered : hub.Hears c := by
    have hroster : (hub.answer c.session text draw).roster = hub.roster := Hub.answer_roster
    refine ⟨fun s hne hin => hhears.1 s hne ?_, hhears.2⟩
    obtain ⟨d, hd, hdsession, hdroom⟩ := hin
    have hin := Hub.mem_roster hd
    rw [← hroster] at hin
    obtain ⟨e, he, heq⟩ := List.mem_map.mp hin
    exact ⟨e, he, (Prod.mk.inj heq).1.trans hdsession, (Prod.mk.inj heq).2.trans hdroom⟩
  exact (hs.hears_iff hc h).mp hanswered

end Hears

/-- While bad answers come only to clients that then lose nothing, no offer names an m-line
it doesn't have, and who has no offer out hears its room and is on an agreed line; and the
first that comes otherwise leaves its client with no offer out and not hearing its room. -/
theorem bad_answers_lose_nothing {usable : Bool} {acts : List Act} {hub : Hub}
    (hm : (machine usable).Meets AnswersWell acts) (hr : (machine usable).run acts = some hub) :
    (∀ c ∈ hub.clients,
      (∀ offer ∈ c.offers, ∀ track ∈ offer.tracks, track.mid ∈ offer.sdp) ∧
      (c.pending = none → hub.Hears c)) ∧
    ∀ c ∈ hub.clients, ¬ c.Answered → ∀ text, text ≠ .applies → ∀ going coming,
      ∃ c' ∈ (step hub ⟨.answer c.session text, going, coming⟩).clients,
        c'.session = c.session ∧ c'.pending = none ∧
        ¬ (step hub ⟨.answer c.session text, going, coming⟩).Hears c' := by
  obtain ⟨hs, h⟩ := (machine usable).invariant_of_meets
    (I := fun hub => Seated hub ∧ ∀ c ∈ hub.clients, c.Ready)
    ⟨⟨List.nodup_nil, fun c hc => by cases hc⟩, fun c hc => by cases hc⟩
    (fun s l t hi hok hl => by cases hl; exact ⟨hi.1.step l, ready_step hi.1 hi.2 hok⟩) hm hr
  refine ⟨fun c hc => ⟨(h c hc).offered, fun hp => ?_⟩, fun c hc hlost text hbad going coming => ?_⟩
  · exact (hs.hears_iff hc (h c hc).toApplied).mpr ((h c hc).answered hp)
  · exact bad_answer_loses hs hc (h c hc).toApplied hlost hbad coming

/-- A bad answer to an offer that stops a line, all lines open but it. -/
def refusesStop : List Act :=
  [⟨.join 1 7, drawnAt 0, drawnAt 1⟩, ⟨.answer 1 .applies, drawnAt 0, drawnAt 2⟩,
    ⟨.join 2 7, drawnAt 0, drawnAt 3⟩, ⟨.answer 1 .applies, drawnAt 0, drawnAt 4⟩,
    ⟨.leave 2, drawnAt 5, drawnAt 0⟩, ⟨.answer 1 .refused, drawnAt 0, drawnAt 6⟩,
    ⟨.join 3 7, drawnAt 0, drawnAt 7⟩, ⟨.answer 1 .applies, drawnAt 0, drawnAt 8⟩]

theorem bad_answers_lose_nothing_refusesStop :
    ∃ hub, (machine true).run refusesStop = some hub ∧
      (∀ c ∈ hub.clients,
        (∀ offer ∈ c.offers, ∀ track ∈ offer.tracks, track.mid ∈ offer.sdp) ∧
        (c.pending = none → hub.Hears c)) ∧
      ∀ c ∈ hub.clients, ¬ c.Answered → ∀ text, text ≠ .applies → ∀ going coming,
        ∃ c' ∈ (step hub ⟨.answer c.session text, going, coming⟩).clients,
          c'.session = c.session ∧ c'.pending = none ∧
          ¬ (step hub ⟨.answer c.session text, going, coming⟩).Hears c' :=
  ⟨_, rfl, @bad_answers_lose_nothing true refusesStop _ (by decide +kernel) rfl⟩

/-- A bad answer to an offer that opens a line, and a good one to the next. -/
def refusesOpening : List Act :=
  [⟨.join 1 7, drawnAt 0, drawnAt 1⟩, ⟨.answer 1 .applies, drawnAt 0, drawnAt 2⟩,
    ⟨.join 2 7, drawnAt 0, drawnAt 3⟩, ⟨.answer 1 .refused, drawnAt 0, drawnAt 4⟩,
    ⟨.join 3 7, drawnAt 0, drawnAt 5⟩, ⟨.answer 1 .applies, drawnAt 0, drawnAt 6⟩]

/-- A session of the room is on a line that its client, with no offer out, never agreed. -/
def Hub.unheard (hub : Hub) (session : SessionId) : Bool :=
  hub.clients.any fun c => c.pending.isNone && (session ≠ c.session) &&
    (hub.clients.any fun d => d.session = session ∧ d.room = c.room) &&
    (c.outFor session).any fun mid => mid ∉ c.rtc.lines

/-- Its voice then goes out on a line nobody agreed, which the next offer named too. -/
theorem refusesOpening_unheard :
    ¬ ∀ (usable : Bool) (acts : List Act) (hub : Hub),
      (machine usable).Meets (fun hub act => DrawsApart hub act ∧ DrawsNew hub act) acts →
      (machine usable).run acts = some hub → ∀ c ∈ hub.clients,
        (∀ offer ∈ c.offers, ∀ track ∈ offer.tracks, track.mid ∈ offer.sdp) ∧
        (c.pending = none → hub.Hears c) := by
  intro h
  have hrun : ((machine true).run refusesOpening).map (fun hub => hub.unheard 2) = some true := by
    decide +kernel
  obtain ⟨hub, hhub, hunheard⟩ := Option.map_eq_some_iff.mp hrun
  obtain ⟨c, hc, hall⟩ := List.any_eq_true.mp hunheard
  simp only [Bool.and_eq_true, Option.isNone_iff_eq_none, decide_eq_true_eq] at hall
  obtain ⟨⟨⟨hp, hne⟩, hthere⟩, hline⟩ := hall
  obtain ⟨d, hd, hboth⟩ := List.any_eq_true.mp hthere
  obtain ⟨mid, hmid, hout⟩ :=
    ((h true refusesOpening hub (by decide +kernel) hhub c hc).2 hp).1 2 hne
      ⟨d, hd, of_decide_eq_true hboth⟩
  rw [hout] at hline
  exact of_decide_eq_true hline hmid

end Linger.Sfu
