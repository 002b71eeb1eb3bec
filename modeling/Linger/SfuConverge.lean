import Linger.SfuHub

/-! Negotiation converges on the room: once nothing is out, a client's latest offer
names everybody else there, each on a line that passes their voice on. -/
namespace Linger.Sfu
open StepMachine

/-- The track an offered line was last named by, while nobody has answered that it stops. -/
def Out.carried (out : Out) : Option Track :=
  match out.state with
  | .negotiating mid => some ⟨mid, out.origin⟩
  | .open mid => some ⟨mid, out.origin⟩
  | .toStop mid => some ⟨mid, out.origin⟩
  | _ => none

/-- The offer that is out opens or stops this line. -/
def Out.inOffer (out : Out) : Bool :=
  match out.state with
  | .negotiating _ => true
  | .negotiatingStop _ => true
  | _ => false

namespace Client

/-- What holds of a client also before it has been offered what changed. -/
structure Steady (c : Client) : Prop where
  mids : (c.outs.filterMap Out.mid).Nodup
  named : ∀ mid ∈ c.outs.filterMap Out.mid, mid ∈ c.named
  told : ∀ offer, c.offers.getLast? = some offer → offer.tracks = c.outs.filterMap Out.carried
  counted : c.offers.length = c.answered + if c.pending.isSome then 1 else 0
  quiet : c.pending = none → ∀ out ∈ c.outs, out.inOffer = false
  mic : c.mic.isSome = true → c.offers ≠ []

/-- With no offer out there is nothing to offer. -/
structure Settled (c : Client) : Prop extends c.Steady where
  settled : c.pending = none → c.hasChanges = false

variable {c : Client} {session : SessionId} {bits n : ℕ} {draw : ℕ → ℕ → Mid} {text : Answer}

theorem named_of_none (h : c.pending = none) : c.named = c.rtc.lines := by
  simp [named, h]

theorem carried_offerOuts {d : ℕ → Mid} {k : ℕ} {outs : List Out} :
    (offerOuts d k outs).filterMap Out.track = (offerOuts d k outs).filterMap Out.carried := by
  induction outs generalizing k with
  | nil => rfl
  | cons out outs ih =>
    obtain ⟨origin, state⟩ := out
    cases state <;> simp [offerOuts, List.filterMap_cons, Out.track, Out.carried, ih]

theorem carried_accepted {outs : List Out} :
    (outs.filterMap Out.accepted).filterMap Out.carried = outs.filterMap Out.carried := by
  rw [List.filterMap_filterMap]
  apply List.filterMap_congr
  intro ⟨origin, state⟩ _
  cases state <;> rfl

theorem carried_forget {outs : List Out} :
    (outs.filterMap (Out.forget session)).filterMap Out.carried = outs.filterMap Out.carried := by
  rw [List.filterMap_filterMap]
  apply List.filterMap_congr
  intro ⟨origin, state⟩ _
  by_cases ho : origin = session <;> cases state <;> simp [Out.forget, Out.carried, ho]

namespace Steady

theorem set_bits (h : c.Steady) (bits : ℕ) : ({ c with bits := bits } : Client).Steady :=
  ⟨h.mids, h.named, h.told, h.counted, h.quiet, h.mic⟩

theorem wants (h : c.Steady) (session : SessionId) : (c.wants session).Steady := by
  have hnone {β : Type} (f : Out → Option β) (hf : f ⟨session, .toOpen⟩ = none) :
      (c.wants session).outs.filterMap f = c.outs.filterMap f := by
    simp [Client.wants, List.filterMap_append, hf]
  refine ⟨?_, ?_, ?_, h.counted, ?_, h.mic⟩
  · rw [hnone Out.mid rfl]
    exact h.mids
  · rw [hnone Out.mid rfl]
    exact h.named
  · rw [hnone Out.carried rfl]
    exact h.told
  · intro hp out hout
    rcases List.mem_append.mp hout with hold | hnew
    · exact h.quiet hp out hold
    · rw [List.mem_singleton.mp hnew]
      rfl

theorem forget (h : c.Steady) (session : SessionId) : (c.forget session).Steady := by
  refine ⟨?_, ?_, ?_, h.counted, ?_, h.mic⟩
  · rw [Client.forget, mids_forget]
    exact h.mids
  · rw [Client.forget, mids_forget]
    exact h.named
  · rw [Client.forget, carried_forget]
    exact h.told
  · intro hp out hout
    rcases mem_forget hout with ⟨hold, -⟩ | ⟨mid, rfl, -⟩
    · exact h.quiet hp out hold
    · rfl

/-- An answer that applies opens and stops what its offer said. -/
theorem accept (h : c.Steady) {pending : SdpPendingOffer} (hp : c.pending = some pending) :
    ({ c with
      pending := none
      rtc := ⟨c.rtc.lines ++ pending.added⟩
      outs := c.outs.filterMap Out.accepted
      answered := c.answered + 1 } : Client).Steady := by
  refine ⟨h.mids.sublist mids_accepted, fun mid hm => ?_, ?_, ?_, fun _ out hout => ?_, h.mic⟩
  · have hnamed := h.named mid (mids_accepted.subset hm)
    simp only [Client.named, hp, Option.elim_some] at hnamed
    simpa [Client.named] using hnamed
  · rw [carried_accepted]
    exact h.told
  · have hcount := h.counted
    simp only [hp, Option.isSome_some, if_true] at hcount
    simpa using hcount
  · obtain ⟨⟨origin, state⟩, -, hacc⟩ := List.mem_filterMap.mp hout
    cases state <;> cases hacc <;> rfl

theorem new {room : RoomId} {others : List SessionId} :
    (Client.new session room others bits).Steady := by
  have hnone {β : Type} (f : Out → Option β) (hf : ∀ s, f ⟨s, .toOpen⟩ = none) :
      (Client.new session room others bits).outs.filterMap f = [] := by
    rw [Client.new, List.filterMap_map]
    exact List.filterMap_eq_nil_iff.mpr fun s _ => hf s
  refine ⟨?_, ?_, fun offer ho => (by cases ho), rfl, fun _ out hout => ?_, fun hm => by cases hm⟩
  · rw [hnone Out.mid fun _ => rfl]
    exact List.nodup_nil
  · rw [hnone Out.mid fun _ => rfl]
    exact fun mid hm => by cases hm
  · obtain ⟨s, -, rfl⟩ := List.mem_map.mp hout
    rfl

/-- An offer is made on mids the connection doesn't have and that differ. -/
theorem offer (h : c.Steady) {d : ℕ → Mid} (hp : c.pending = none) (hd : (c.drawn d).Nodup)
    (hnew : ∀ mid ∈ c.drawn d, mid ∉ c.rtc.lines) : (c.offer d).Steady := by
  have hsub : (List.range (c.outs.countP Out.isToOpen)).map (fun i => d (c.micLines + i)) ⊆
      c.drawn d := by
    intro mid hm
    obtain ⟨i, hi, rfl⟩ := List.mem_map.mp hm
    refine List.mem_map.mpr ⟨c.micLines + i, ?_, rfl⟩
    have := List.mem_range.mp hi
    exact List.mem_range.mpr (by omega)
  have hlines (mid : Mid) (hm : mid ∈ c.outs.filterMap Out.mid) : mid ∈ c.rtc.lines := by
    rw [← named_of_none hp]
    exact h.named mid hm
  have hperm : ((offerOuts d c.micLines c.outs).filterMap Out.mid).Perm _ := mids_offerOuts
  refine ⟨?_, fun mid hm => ?_, fun offer ho => ?_, ?_, fun hn => (by cases hn), fun _ => ?_⟩
  · refine hperm.nodup_iff.mpr (List.nodup_append.mpr ⟨h.mids, ?_, ?_⟩)
    · rw [Client.drawn, List.range_add, List.map_append, List.map_map] at hd
      exact (List.nodup_append.mp hd).2.1
    · intro mid hm mid' hm' he
      exact hnew mid' (hsub hm') (he ▸ hlines mid hm)
  · simp only [Client.named, Client.offer, Option.elim_some]
    rcases List.mem_append.mp (hperm.mem_iff.mp hm) with hold | hdrawn
    · exact List.mem_append_left _ (hlines mid hold)
    · exact List.mem_append_right _ (hsub hdrawn)
  · rw [Client.offer, List.getLast?_append, List.getLast?_singleton] at ho
    cases ho
    exact carried_offerOuts
  · have hcount := h.counted
    simp only [hp, Option.isSome_none, Bool.false_eq_true, if_false] at hcount
    simp [Client.offer, hcount]
  · simp [Client.offer]

/-- With mids that are new and a draw that repeats none, whatever changed is offered. -/
theorem negotiate (h : c.Steady) (ha : Apart draw n) (hn : c.fresh ≤ n)
    (hnew : c.pending = none → ∀ attempt, attempt < draws → ∀ i, i < n →
      draw attempt i ∉ c.rtc.lines) : (c.negotiate draw).Settled := by
  rcases negotiate_apart ha hn with ⟨he, hkeep⟩ | ⟨attempt, hlt, hp, hc, hd, he⟩
  · rw [he]
    refine ⟨h, fun hp => ?_⟩
    rcases hkeep with hsome | hc
    · rw [hp] at hsome
      cases hsome
    · exact hc
  · rw [he]
    refine ⟨h.offer hp hd fun mid hm => ?_, fun hn => by cases hn⟩
    obtain ⟨i, hi, rfl⟩ := List.mem_map.mp hm
    have hi := List.mem_range.mp hi
    exact hnew hp attempt hlt i (by unfold fresh at hn; omega)

end Steady

/-- `str0m` draws `n` m-lines for a connection that are new to it, and in some attempt
differ. -/
structure Draws (c : Client) (draw : ℕ → ℕ → Mid) (n : ℕ) : Prop where
  apart : Apart draw n
  new : ∀ attempt, attempt < draws → ∀ i, i < n → draw attempt i ∉ c.rtc.lines

namespace Settled

theorem loses (h : c.Settled) (hd : c.Draws draw n)
    (hn : (({ c with bits := bits } : Client).forget session).fresh ≤ n) :
    (c.loses session bits draw).Settled :=
  ((h.toSteady.set_bits bits).forget session).negotiate hd.apart hn fun _ => hd.new

theorem gains (h : c.Settled) (hd : c.Draws draw n)
    (hn : (({ c with bits := bits } : Client).wants session).fresh ≤ n) :
    (c.gains session bits draw).Settled :=
  ((h.toSteady.set_bits bits).wants session).negotiate hd.apart hn fun _ => hd.new

/-- An answer either applies, and what waited is offered, or finds no offer out. -/
theorem answers (h : c.Settled) (ha : Apart draw n)
    (hnew : ∀ attempt, attempt < draws → ∀ i, i < n → draw attempt i ∉ c.named)
    (hn : ∀ c' : Client, c'.outs = c.outs.filterMap Out.accepted → c'.fresh ≤ n) :
    ((c.accept .applies).2 = .ok () → ((c.accept .applies).1.negotiate draw).Settled) ∧
    (∀ error, (c.accept .applies).2 = .error error → (c.accept .applies).1.Settled) := by
  rcases c.accept_cases .applies with ⟨pending, hp, -, he⟩ | ⟨hnone, error, he⟩
  · rw [he]
    refine ⟨fun _ => (h.toSteady.accept hp).negotiate ha (hn _ rfl) ?_, fun error he => by cases he⟩
    intro _ attempt hlt i hi
    simpa [named, hp] using hnew attempt hlt i hi
  · have hp : c.pending = none := hnone.resolve_right (by simp)
    have hsame : ({ c with pending := none } : Client) = c := by rw [← hp]
    rw [he, hsame]
    exact ⟨fun he => (by cases he), fun _ _ => h⟩

end Settled

end Client

/-- Every answer applies, and what `str0m` draws is new and differs. -/
def Settles (hub : Hub) (act : Act) : Prop :=
  act.command.Applies ∧ DrawsApart hub act ∧ DrawsNew hub act

instance (hub : Hub) (act : Act) : Decidable (Settles hub act) :=
  inferInstanceAs (Decidable (_ ∧ _ ∧ _))

section Step
variable {hub : Hub} {session : SessionId} {room : RoomId} {draw coming : Draws} {c : Client}

theorem length_remove_le : (hub.remove session draw).clients.length ≤ hub.clients.length := by
  have h : (hub.remove session draw).roster.length ≤ hub.roster.length := by
    rw [Hub.remove_roster]
    exact List.length_eraseP_le
  simpa [Hub.roster] using h

/-- Whoever is there after somebody has gone was there before. -/
theorem sessions_remove {s : SessionId}
    (h : s ∈ session :: (hub.remove session draw).clients.map Client.session) :
    s ∈ session :: hub.clients.map Client.session := by
  rcases List.mem_cons.mp h with rfl | hmem
  · exact List.mem_cons_self
  · obtain ⟨c, hc, rfl⟩ := List.mem_map.mp hmem
    have hin := Hub.mem_roster hc
    rw [Hub.remove_roster] at hin
    obtain ⟨c₀, hc₀, he⟩ := List.mem_map.mp (List.mem_of_mem_eraseP hin)
    rw [← (Prod.mk.inj he).1]
    exact List.mem_cons_of_mem _ (List.mem_map_of_mem hc₀)

end Step

theorem mem_of_outFor {c : Client} {s : SessionId} {mid : Mid} (h : c.outFor s = some mid) :
    ⟨s, .open mid⟩ ∈ c.outs := by
  obtain ⟨⟨origin, state⟩, hmem, ho⟩ := List.exists_of_findSome?_eq_some h
  cases state with
  | «open» m =>
    obtain ⟨rfl, hm⟩ : origin = s ∧ m = mid := by simpa [Out.goesOut] using ho
    exact hm ▸ hmem
  | toOpen | negotiating | toStop | negotiatingStop => cases ho

/-- No two entries are kept as the same when nothing is kept twice. -/
theorem inj_of_filterMap_nodup {α β : Type} {f : α → Option β} {l : List α} {a b : α} {x : β}
    (h : (l.filterMap f).Nodup) (ha : a ∈ l) (hb : b ∈ l) (hfa : f a = some x)
    (hfb : f b = some x) : a = b := by
  induction l with
  | nil => cases ha
  | cons d l ih =>
    have hin {e : α} (he : e ∈ l) (hf : f e = some x) : x ∈ l.filterMap f :=
      List.mem_filterMap.mpr ⟨e, he, hf⟩
    have htail : (l.filterMap f).Nodup := h.sublist ((List.sublist_cons_self d l).filterMap f)
    have hhead (hd : f d = some x) : x ∉ l.filterMap f := by
      rw [List.filterMap_cons_some hd] at h
      exact (List.nodup_cons.mp h).1
    rcases List.mem_cons.mp ha with rfl | ha' <;> rcases List.mem_cons.mp hb with rfl | hb'
    · rfl
    · exact absurd (hin hb' hfb) (hhead hfa)
    · exact absurd (hin ha' hfa) (hhead hfb)
    · exact ih htail ha' hb'

/-- With one out line wanted for each session, its voice goes out on the one that is open. -/
theorem outFor_of_mem {c : Client} {s : SessionId} {mid : Mid}
    (hnodup : (c.outs.filterMap Out.wanted).Nodup) (h : ⟨s, .open mid⟩ ∈ c.outs) :
    c.outFor s = some mid := by
  cases ho : c.outFor s with
  | none =>
    have hnone := List.findSome?_eq_none_iff.mp ho _ h
    simp [Out.goesOut] at hnone
  | some mid' =>
    have heq := inj_of_filterMap_nodup hnodup h (mem_of_outFor ho) (x := s) rfl rfl
    cases heq
    rfl

/-- With no offer out every out line is open. -/
theorem Client.Settled.open {c : Client} (h : c.Settled) (hp : c.pending = none) {out : Out}
    (hout : out ∈ c.outs) : ∃ mid, out.state = .open mid := by
  have hquiet := h.quiet hp out hout
  obtain ⟨hopen, hstop⟩ := (hasChanges_eq_false.mp (h.settled hp)).2 out hout
  obtain ⟨origin, state⟩ := out
  cases state with
  | «open» mid => exact ⟨mid, rfl⟩
  | toOpen => cases hopen
  | toStop => cases hstop
  | negotiating => cases hquiet
  | negotiatingStop => cases hquiet

/-- Somebody leaves and comes back while the first client's offer is out. -/
def rejoining : List Act :=
  let draw (k : ℕ) : Draws := fun _ _ i => 10 * k + i
  [⟨.join 1 7, draw 0, draw 1⟩, ⟨.answer 1 .applies, draw 0, draw 2⟩, ⟨.join 2 7, draw 0, draw 3⟩,
    ⟨.leave 2, draw 4, draw 0⟩, ⟨.join 2 7, draw 5, draw 6⟩, ⟨.answer 1 .applies, draw 0, draw 7⟩,
    ⟨.answer 2 .applies, draw 0, draw 8⟩, ⟨.answer 1 .applies, draw 0, draw 9⟩]

end Linger.Sfu
