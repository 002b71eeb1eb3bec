import Linger.SfuConverge

/-! What a room sends its voice at: everybody in it has the rate its sizes led to, and,
while nobody goes whom a client's offer has yet to name, its newest offer says it. -/
namespace Linger.Sfu
open StepMachine

/-- The rate a room's sizes lead to, from the first on. -/
def rate (sizes : List (RoomId × ℕ)) (room : RoomId) : ℕ :=
  (sizes.filter fun e => e.1 = room).foldl (fun before e => bitsFor e.2 before) smallRoomBits

/-- The size a room came to have last. -/
def lastSize (sizes : List (RoomId × ℕ)) (room : RoomId) : ℕ :=
  ((sizes.filter fun e => e.1 = room).getLast?).elim 0 Prod.snd

section Sizes
variable {sizes : List (RoomId × ℕ)} {room r : RoomId} {people : ℕ}

theorem rate_snoc : rate (sizes ++ [(r, people)]) room =
    if r = room then bitsFor people (rate sizes room) else rate sizes room := by
  by_cases h : r = room <;> simp [rate, List.filter_append, h]

theorem lastSize_snoc : lastSize (sizes ++ [(r, people)]) room =
    if r = room then people else lastSize sizes room := by
  by_cases h : r = room <;> simp [lastSize, List.filter_append, h]

/-- A room of one or none is a small one, whatever it was before. -/
theorem bitsFor_few (h : people ≤ 1) (before before' : ℕ) :
    bitsFor people before = bitsFor people before' := by
  have hbig : ¬ people ≥ bigRoom := by unfold bigRoom; omega
  have hsmall : people ≤ smallAgain := by unfold smallAgain; omega
  rw [bitsFor, bitsFor, if_neg hbig, if_neg hbig, if_pos hsmall, if_pos hsmall]

end Sizes

/-- Everybody in a room has the rate its sizes led to, the last of which it still has. -/
structure Rated (hub : Hub) : Prop where
  bits : ∀ c ∈ hub.clients, c.bits = rate hub.sizes c.room
  size : ∀ room, lastSize hub.sizes room = (hub.there room).length

namespace Rated
variable {hub : Hub} {session : SessionId} {room : RoomId} {draw : Draws} {c : Client}
  {text : Answer} {extra : ℕ}

theorem there_length (hub : Hub) (room : RoomId) :
    (hub.there room).length = hub.roster.countP fun e => e.2 = room := by
  rw [Hub.there, Hub.roster, List.countP_map, List.countP_eq_length_filter]
  rfl

/-- What the first client has is what everybody has, and with nobody there it is the same
as what it was. -/
theorem bitsFor_before (room : RoomId) (h : ∀ c ∈ hub.clients, c.bits = rate hub.sizes c.room)
    (he : extra ≤ 1) :
    bitsFor ((hub.there room).length + extra) (hub.before room) =
      bitsFor ((hub.there room).length + extra) (rate hub.sizes room) := by
  cases hthere : hub.there room with
  | nil => exact bitsFor_few (by simpa using he) _ _
  | cons first others =>
    have hmem : first ∈ hub.there room := hthere ▸ List.mem_cons_self
    obtain ⟨hfirst, hroom⟩ := List.mem_filter.mp hmem
    have hbits := h first hfirst
    rw [of_decide_eq_true hroom] at hbits
    rw [Hub.before, hthere, ← hbits]
    rfl

theorem without (h : ∀ c ∈ hub.clients, c.bits = rate hub.sizes c.room) :
    ∀ c ∈ (hub.without session).clients, c.bits = rate (hub.without session).sizes c.room :=
  fun c hc => h c (List.mem_of_mem_eraseP hc)

@[simp] theorem loses_bits {bits : ℕ} {d : ℕ → ℕ → Mid} : (c.loses session bits d).bits = bits := by
  simp [Client.loses, Client.forget]

@[simp] theorem gains_bits {bits : ℕ} {d : ℕ → ℕ → Mid} : (c.gains session bits d).bits = bits := by
  simp [Client.gains, Client.wants]

theorem remove (h : Rated hub) (hs : Seated hub) : Rated (hub.remove session draw) := by
  cases hgone : hub.clients.find? fun c => c.session = session with
  | none => rwa [Hub.remove_none hgone]
  | some gone =>
    have hsizes : (hub.remove session draw).sizes = _ := Hub.remove_sizes hgone
    refine ⟨hs.remove_forall (fun c hc _ hroom => ?_) fun gone' c hgone' _ _ hroom => ?_,
      fun room => ?_⟩
    · rw [hsizes, rate_snoc, if_neg (Ne.symm (hroom gone hgone))]
      exact h.bits c hc
    · cases hgone.symm.trans hgone'
      rw [loses_bits, Hub.loses_room, hroom, hsizes, rate_snoc, if_pos rfl]
      exact bitsFor_before gone.room (without h.bits) (Nat.zero_le 1)
    · have hthere : ((hub.remove session draw).there room).length =
          ((hub.without session).there room).length := by
        rw [there_length, there_length, Hub.remove_roster, Hub.without_roster]
      rw [hsizes, lastSize_snoc, hthere]
      by_cases hroom : gone.room = room
      · rw [if_pos hroom, hroom]
      · -- the session that went was in no other room
        rw [if_neg hroom, h.size, there_length, there_length, Hub.without_roster,
          eraseP_fst hs.once, List.countP_filter]
        apply List.countP_congr
        intro e he
        have hne : e.2 = room → e.1 ≠ session := by
          intro hr hsession
          obtain ⟨s, r⟩ := e
          cases hr
          cases hsession
          exact hroom (hs.room_eq (Seated.gone_mem hgone) he)
        by_cases hr : e.2 = room
        · simp [hr, hne hr]
        · simp [hr]

theorem enter (h : Rated hub) : Rated (hub.enter session room draw) := by
  have hsizes : (hub.enter session room draw).sizes =
      hub.sizes ++ [(room, (hub.there room).length + 1)] := rfl
  have hrate := bitsFor_before room h.bits (Nat.le_refl 1)
  refine ⟨Seated.enter_forall (fun c hc hroom => ?_) (fun c hc hroom => ?_) ?_, fun r => ?_⟩
  · rw [hsizes, rate_snoc, if_neg (Ne.symm hroom)]
    exact h.bits c hc
  · rw [gains_bits, Hub.gains_room, hroom, hsizes, rate_snoc, if_pos rfl]
    exact hrate
  · rw [Client.negotiate_bits, Client.negotiate_room, hsizes, Client.new, rate_snoc, if_pos rfl]
    exact hrate
  · rw [hsizes, lastSize_snoc, there_length (hub.enter session room draw), Hub.enter_roster,
      List.countP_append]
    by_cases hr : room = r
    · rw [if_pos hr, there_length, hr]
      simp
    · rw [if_neg hr, h.size, there_length]
      simp [hr]

theorem answer (h : Rated hub) : Rated (hub.answer session text draw) := by
  refine ⟨fun c hc => ?_, fun room => ?_⟩
  · rcases Hub.mem_answer hc with hold | ⟨c₀, hc₀, -, hnew⟩
    · exact h.bits c hold
    · have hbits : c.bits = c₀.bits ∧ c.room = c₀.room := by
        rcases c₀.accept_cases text with ⟨pending, -, -, ha⟩ | ⟨-, error, ha⟩
        · rw [ha] at hnew
          rcases hnew with ⟨-, rfl⟩ | ⟨⟨_, he⟩, -⟩
          · simp
          · cases he
        · rw [ha] at hnew
          rcases hnew with ⟨he, -⟩ | ⟨-, rfl⟩
          · cases he
          · exact ⟨rfl, rfl⟩
      rw [hbits.1, hbits.2]
      exact h.bits c₀ hc₀
  · rw [there_length, Hub.answer_roster, ← there_length]
    exact h.size room

theorem step (h : Rated hub) (hs : Seated hub) (act : Act) : Rated (step hub act) := by
  obtain ⟨command, going, coming⟩ := act
  cases command with
  | join session room =>
    change Rated (if (hub.remove session going).usable then _ else _)
    split
    · exact (h.remove hs).enter
    · exact h.remove hs
  | answer session text => exact h.answer
  | leave session => exact h.remove hs

end Rated

namespace Client
variable {c : Client} {session : SessionId} {bits n : ℕ} {draw : ℕ → ℕ → Mid}

/-- Its newest offer says the rate it is at. -/
def Told (c : Client) : Prop := ∃ offer, c.offers.getLast? = some offer ∧ offer.bits = c.bits

/-- An out line waits for the next offer. -/
def toTell (c : Client) : Bool := c.outs.any fun out => out.isToOpen || out.isToStop

/-- With nothing out nothing has changed, and the rate is told, or will be. -/
structure Telling (c : Client) : Prop where
  settled : c.pending = none → c.hasChanges = false
  tells : c.Told ∨ c.toTell = true

theorem Telling.told (h : c.Telling) (hp : c.pending = none) : c.Told := by
  apply h.tells.resolve_right
  have hnone := (hasChanges_eq_false.mp (h.settled hp)).2
  simpa [toTell] using hnone

/-- Whatever changed is offered with the rate of now, unless an offer is out. -/
theorem negotiate_telling (ha : Apart draw n) (hn : c.fresh ≤ n)
    (h : c.Told ∨ c.toTell = true ∨ c.pending = none ∧ c.mic = none) :
    (c.negotiate draw).Telling := by
  rcases negotiate_apart ha hn with ⟨he, hkeep⟩ | ⟨attempt, -, hp, -, -, he⟩
  · rw [he]
    refine ⟨fun hp => ?_, ?_⟩
    · rw [hp] at hkeep
      exact hkeep.resolve_left (by simp)
    · rcases h with htold | htell | ⟨hp, hmic⟩
      · exact .inl htold
      · exact .inr htell
      · rw [hp] at hkeep
        have hsome := (hasChanges_eq_false.mp (hkeep.resolve_left (by simp))).1
        rw [hmic] at hsome
        cases hsome
  · rw [he]
    exact ⟨fun hn => (by cases hn), .inl ⟨_, List.getLast?_concat, rfl⟩⟩

theorem wants_toTell : (c.wants session).toTell = true := by
  simp [toTell, wants, Out.isToOpen]

/-- Whoever has been offered the one who goes is told by the line that stops. -/
theorem forget_toTell {origin : SessionId} {out : Out} (hmem : out ∈ c.outs)
    (h : out.origin = origin ∧ out.wanted.isSome = true ∧ out.isToOpen = false ∨
      out ≠ ⟨origin, .toOpen⟩ ∧ (out.isToOpen || out.isToStop) = true) :
    (c.forget origin).toTell = true := by
  obtain ⟨o, state⟩ := out
  have hany (out' : Out) (hf : Out.forget origin ⟨o, state⟩ = some out')
      (ht : (out'.isToOpen || out'.isToStop) = true) : (c.forget origin).toTell = true :=
    List.any_eq_true.mpr ⟨out', List.mem_filterMap.mpr ⟨_, hmem, hf⟩, ht⟩
  rcases h with ⟨rfl, hwanted, hopen⟩ | ⟨hne, htell⟩
  · cases state with
    | toOpen => cases hopen
    | negotiating mid => exact hany ⟨o, .toStop mid⟩ (by simp [Out.forget]) rfl
    | «open» mid => exact hany ⟨o, .toStop mid⟩ (by simp [Out.forget]) rfl
    | toStop => cases hwanted
    | negotiatingStop => cases hwanted
  · cases state with
    | toOpen =>
      have ho : o ≠ origin := by
        rintro rfl
        exact hne rfl
      exact hany ⟨o, .toOpen⟩ (by simp [Out.forget, ho]) rfl
    | toStop mid => exact hany ⟨o, .toStop mid⟩ (by simp [Out.forget]) rfl
    | negotiating => cases htell
    | «open» => cases htell
    | negotiatingStop => cases htell

end Client

/-- Each client that has yet to offer `session` when it goes was told the rate the room is
left with, or has another line to open or stop. -/
def Hub.GoneTold (hub : Hub) (session : SessionId) : Prop :=
  ∀ c ∈ hub.clients, (⟨session, .toOpen⟩ : Out) ∈ c.outs →
    c.offers.getLast?.map Offer.bits = some (bitsFor ((hub.there c.room).length - 1) c.bits) ∨
    ∃ out ∈ c.outs, out ≠ ⟨session, .toOpen⟩ ∧ (out.isToOpen || out.isToStop) = true

/-- That holds whenever a session goes, unless it comes straight back into its room. -/
def KeepsRate (hub : Hub) (act : Act) : Prop :=
  match act.command with
  | .answer _ _ => True
  | .leave session => hub.GoneTold session
  | .join session room => hub.GoneTold session ∨
    hub.usable = true ∧ ∃ c ∈ hub.clients, c.session = session ∧ c.room = room

instance (hub : Hub) (session : SessionId) : Decidable (hub.GoneTold session) :=
  inferInstanceAs (Decidable (∀ c ∈ hub.clients, _ → _ = _ ∨ ∃ out ∈ c.outs, _))

instance (hub : Hub) (act : Act) : Decidable (KeepsRate hub act) :=
  match act with
  | ⟨.answer _ _, _, _⟩ => isTrue trivial
  | ⟨.leave session, _, _⟩ => inferInstanceAs (Decidable (hub.GoneTold session))
  | ⟨.join session room, _, _⟩ => inferInstanceAs (Decidable (hub.GoneTold session ∨
      hub.usable = true ∧ ∃ c ∈ hub.clients, c.session = session ∧ c.room = room))

section Step
variable {hub : Hub} {session : SessionId} {room : RoomId} {draw coming : Draws} {n : ℕ}

/-- The room of somebody who goes is one person fewer. -/
theorem there_without (hs : Seated hub) {gone : Client}
    (hgone : hub.clients.find? (fun c => c.session = session) = some gone) :
    ((hub.without session).there gone.room).length = (hub.there gone.room).length - 1 := by
  have hsession : gone.session = session := by simpa using List.find?_some hgone
  obtain ⟨a, l₁, l₂, -, ha, hl, he⟩ := List.exists_of_eraseP
    (p := fun c : Client => c.session = session) (List.mem_of_find?_eq_some hgone)
    (decide_eq_true hsession)
  have hroom : a.room = gone.room := by
    have hmem : a ∈ hub.clients := hl ▸ List.mem_append_right _ List.mem_cons_self
    have hsession : a.session = session := by simpa using ha
    exact hs.room_eq (hsession ▸ Hub.mem_roster hmem) (Seated.gone_mem hgone)
  rw [Hub.there, Hub.there, Hub.without, he, hl]
  simp [List.filter_append, hroom]

theorem telling_loses (hs : Seated hub) (hr : Rated hub) {gone c : Client}
    (hgone : hub.clients.find? (fun c => c.session = session) = some gone)
    (hc : c ∈ hub.clients) (hne : c.session ≠ session) (hroom : c.room = gone.room)
    (htold : hub.GoneTold session) {d : ℕ → ℕ → Mid}
    (ha : Apart d (hub.clients.length + 1)) :
    (c.loses session (bitsFor ((hub.without session).there gone.room).length
      ((hub.without session).before gone.room)) d).Telling := by
  have hbits : bitsFor ((hub.without session).there gone.room).length
      ((hub.without session).before gone.room) =
      bitsFor ((hub.there c.room).length - 1) c.bits := by
    have hleft : ∀ c ∈ (hub.without session).clients, c.bits = rate hub.sizes c.room :=
      Rated.without hr.bits
    have hrate := Rated.bitsFor_before gone.room hleft (Nat.zero_le 1)
    rw [Nat.add_zero] at hrate
    rw [hrate, there_without hs hgone, hr.bits c hc, hroom]
    rfl
  refine Client.negotiate_telling ha (hs.fresh_forget hc _) ?_
  have hin : session ∈ c.outs.filterMap Out.wanted := by
    rw [hs.wanted c hc]
    exact mem_others.mpr ⟨hroom ▸ Seated.gone_mem hgone, hne.symm⟩
  obtain ⟨⟨o, state⟩, hmem, hw⟩ := List.mem_filterMap.mp hin
  have ho : o = session := by
    cases state <;> cases hw <;> rfl
  subst ho
  by_cases hopen : state = .toOpen
  · subst hopen
    rcases htold c hc hmem with hlast | ⟨out, hout, hother, htell⟩
    · obtain ⟨offer, hoffer, heq⟩ := Option.map_eq_some_iff.mp hlast
      exact .inl ⟨offer, hoffer, by rw [hbits]; exact heq⟩
    · exact .inr (.inl (Client.forget_toTell hout (.inr ⟨hother, htell⟩)))
  · refine .inr (.inl (Client.forget_toTell hmem (.inl ⟨rfl, ?_, ?_⟩)))
    · rw [hw]
      rfl
    · simpa [Out.isToOpen] using hopen

theorem telling_enter (hs : Seated hub) (h : ∀ c ∈ hub.clients, c.room ≠ room → c.Telling)
    (ha : ∀ s ∈ session :: hub.clients.map Client.session, Apart (draw s) n)
    (hn : hub.clients.length + 1 ≤ n) :
    ∀ c ∈ (hub.enter session room draw).clients, c.Telling := by
  refine Seated.enter_forall h (fun c hc _ => ?_) ?_
  · exact Client.negotiate_telling (ha c.session (List.mem_cons_of_mem _ (List.mem_map_of_mem hc)))
      ((hs.fresh_wants hc _).trans hn) (.inr (.inl Client.wants_toTell))
  · exact Client.negotiate_telling (ha session List.mem_cons_self)
      ((Seated.fresh_new hub session room _).trans hn) (.inr (.inr ⟨rfl, rfl⟩))

theorem telling_answer (hs : Seated hub) (h : ∀ c ∈ hub.clients, c.Telling)
    (ha : ∀ c ∈ hub.clients, Apart (draw c.session) (hub.clients.length + 1)) :
    ∀ c ∈ (hub.answer session .applies draw).clients, c.Telling := by
  intro c hc
  rcases Hub.mem_answer hc with hold | ⟨c₀, hc₀, -, hans⟩
  · exact h c hold
  · have htell := (h c₀ hc₀).tells
    rcases c₀.accept_cases .applies with ⟨pending, hp, -, he⟩ | ⟨hnone, error, he⟩
    · rw [he] at hans
      rcases hans with ⟨-, rfl⟩ | ⟨⟨_, he⟩, -⟩
      · refine Client.negotiate_telling (ha c₀ hc₀) (hs.fresh_accepted hc₀ rfl)
          (htell.imp id fun ht => .inl ?_)
        obtain ⟨⟨o, state⟩, hmem, hstate⟩ := List.any_eq_true.mp ht
        refine List.any_eq_true.mpr ⟨⟨o, state⟩, List.mem_filterMap.mpr ⟨_, hmem, ?_⟩, hstate⟩
        cases state with
        | toOpen | toStop => rfl
        | negotiating | «open» | negotiatingStop => cases hstate
      · cases he
    · have hp : c₀.pending = none := hnone.resolve_right (by simp)
      have hsame : ({ c₀ with pending := none } : Client) = c₀ := by rw [← hp]
      rw [he, hsame] at hans
      rcases hans with ⟨he, -⟩ | ⟨-, rfl⟩
      · cases he
      · exact h c hc₀

/-- Answers apply, draws can be offered, and what goes leaves the rate told. -/
def TellsRate (hub : Hub) (act : Act) : Prop :=
  act.command.Applies ∧ DrawsApart hub act ∧ KeepsRate hub act

instance (hub : Hub) (act : Act) : Decidable (TellsRate hub act) :=
  inferInstanceAs (Decidable (_ ∧ _ ∧ _))

theorem telling_step (hs : Seated hub) (hr : Rated hub) (h : ∀ c ∈ hub.clients, c.Telling)
    {act : Act} (hok : TellsRate hub act) : ∀ c ∈ (step hub act).clients, c.Telling := by
  obtain ⟨command, going, coming⟩ := act
  obtain ⟨happlies, hapart, hkeeps⟩ := hok
  have hof (c : Client) (hc : c ∈ hub.clients) := hapart c.session
    (List.mem_cons_of_mem _ (List.mem_map_of_mem hc))
  cases command with
  | leave session =>
    exact hs.remove_forall (fun c hc _ _ => h c hc) fun gone c hgone hc hne hroom =>
      telling_loses hs hr hgone hc hne hroom hkeeps (hof c hc).1
  | answer session text =>
    cases happlies
    exact telling_answer hs h fun c hc => (hof c hc).2
  | join session room =>
    -- who comes straight back is offered again, so only other rooms can be left untold
    have hgone : ∀ c ∈ (hub.remove session going).clients,
        c.room ≠ room ∨ hub.usable = false → c.Telling := by
      refine hs.remove_forall (fun c hc _ _ _ => h c hc) fun gone c hg hc hne hroom helse => ?_
      rcases hkeeps with htold | ⟨husable, c', hc', hsession, hroom'⟩
      · exact telling_loses hs hr hg hc hne hroom htold (hof c hc).1
      · have hsame : gone.room = room := by
          have hmem := Hub.mem_roster hc'
          rw [hsession, hroom'] at hmem
          exact hs.room_eq (Seated.gone_mem hg) hmem
        rw [Client.loses, Client.negotiate_room] at helse
        rcases helse with hother | hnot
        · exact absurd (hroom.trans hsame) hother
        · rw [husable] at hnot
          cases hnot
    have husable : (hub.remove session going).usable = hub.usable := by
      unfold Hub.remove
      split <;> rfl
    change ∀ c ∈ (if (hub.remove session going).usable then _ else _ : Hub).clients, c.Telling
    split
    · refine telling_enter hs.remove (fun c hc hroom => hgone c hc (.inl hroom)) ?_
        (Nat.succ_le_succ length_remove_le)
      exact fun s hsession => (hapart s (sessions_remove hsession)).2
    · next hnot => exact fun c hc => hgone c hc (.inr (by simpa [husable] using hnot))

end Step

/-- Everybody in a room has the rate its sizes led to, and while each one that goes leaves
the rate told, whoever has no offer out was told it by their newest. -/
theorem newest_offer_tells_rate {usable : Bool} {acts : List Act} {hub : Hub}
    (hm : (machine usable).Meets TellsRate acts) (hr : (machine usable).run acts = some hub) :
    (∀ room, lastSize hub.sizes room = (hub.there room).length) ∧
    ∀ c ∈ hub.clients, c.bits = rate hub.sizes c.room ∧
      (c.pending = none → ∃ offer, c.offers.getLast? = some offer ∧ offer.bits = c.bits) := by
  have hstart : Seated (machine usable).start ∧ Rated (machine usable).start ∧
      ∀ c ∈ (machine usable).start.clients, c.Telling :=
    ⟨⟨List.nodup_nil, fun c hc => by cases hc⟩, ⟨fun c hc => (by cases hc), fun _ => rfl⟩,
      fun c hc => by cases hc⟩
  obtain ⟨-, hrated, htelling⟩ := (machine usable).invariant_of_meets
    (I := fun hub => Seated hub ∧ Rated hub ∧ ∀ c ∈ hub.clients, c.Telling) hstart
    (fun s l t hi hok hl => by
      cases hl
      exact ⟨hi.1.step l, hi.2.1.step hi.1 l, telling_step hi.1 hi.2.1 hi.2.2 hok⟩) hm hr
  exact ⟨hrated.size, fun c hc => ⟨hrated.bits c hc, (htelling c hc).told⟩⟩

theorem newest_offer_tells_rate_rejoining :
    ∃ hub, (machine true).run rejoining = some hub ∧
      (∀ room, lastSize hub.sizes room = (hub.there room).length) ∧
      ∀ c ∈ hub.clients, c.bits = rate hub.sizes c.room ∧
        (c.pending = none → ∃ offer, c.offers.getLast? = some offer ∧ offer.bits = c.bits) :=
  ⟨_, rfl, @newest_offer_tells_rate true rejoining _ (by decide +kernel) rfl⟩

/-- What is drawn here for the `k`th command. -/
def drawnAt (k : ℕ) : Draws := fun _ _ i => 100 * k + i

/-- Twenty are in a room, the last of whom has an offer for all the others out, when
somebody joins and leaves again. -/
def twentyFirst : List Act :=
  (List.range 21).map (fun k => ⟨.join (k + 1) 7, drawnAt 0, drawnAt (k + 1)⟩) ++
    [⟨.leave 21, drawnAt 22, drawnAt 0⟩, ⟨.answer 20 .applies, drawnAt 0, drawnAt 23⟩]

/-- Somebody has no offer out and a newest offer with another rate than theirs. -/
def Hub.untold (hub : Hub) : Bool :=
  hub.clients.any fun c => c.pending.isNone && c.offers.getLast?.map Offer.bits ≠ some c.bits

/-- Whoever answers after that is never told what the room now sends at. -/
theorem twentyFirst_untold :
    ¬ ∀ (usable : Bool) (acts : List Act) (hub : Hub),
      (machine usable).Meets (fun hub act => act.command.Applies ∧ DrawsApart hub act) acts →
      (machine usable).run acts = some hub → ∀ c ∈ hub.clients,
        c.pending = none → ∃ offer, c.offers.getLast? = some offer ∧ offer.bits = c.bits := by
  intro h
  have hdraws (k n : ℕ) (s : SessionId) : Apart (drawnAt k s) n := by
    apply apart_of_injective
    intro i j hij
    have heq : 100 * k + i = 100 * k + j := hij
    omega
  have hmeets : (machine true).Meets
      (fun hub act => act.command.Applies ∧ DrawsApart hub act) twentyFirst := by
    apply Machine.meets_of_forall
    intro hub act hact
    rcases List.mem_append.mp hact with hjoin | hlast
    · obtain ⟨k, -, rfl⟩ := List.mem_map.mp hjoin
      exact ⟨trivial, fun s _ => ⟨hdraws _ _ s, hdraws _ _ s⟩⟩
    · rcases List.mem_pair.mp hlast with rfl | rfl
      · exact ⟨trivial, fun s _ => ⟨hdraws _ _ s, hdraws _ _ s⟩⟩
      · exact ⟨rfl, fun s _ => ⟨hdraws _ _ s, hdraws _ _ s⟩⟩
  have hrun : ((machine true).run twentyFirst).map Hub.untold = some true := by decide +kernel
  obtain ⟨hub, hhub, huntold⟩ := Option.map_eq_some_iff.mp hrun
  obtain ⟨c, hc, hboth⟩ := List.any_eq_true.mp huntold
  simp only [Bool.and_eq_true, Option.isNone_iff_eq_none, decide_eq_true_eq] at hboth
  obtain ⟨offer, hoffer, hbits⟩ := h true twentyFirst hub hmeets hhub c hc hboth.1
  apply hboth.2
  rw [hoffer, ← hbits]
  rfl

end Linger.Sfu
