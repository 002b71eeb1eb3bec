import Linger.TaskPool
import Linger.HistoryFits

/-! What a client has asked for and what it holds, side by side: one answer at most is waited
for by an opening of the room, and it is what the room had when the server read it. -/
namespace Linger.History
open FiniteMap TaskPool
open Linger.Messages (Request ReactionGroup ReactionKey)

/-- The message a frame tells of for the first time. -/
def Frame.created : Frame → Option MessageId
  | .create message => some message.id
  | .update _ => none
  | .delete _ => none
  | .reaction _ _ => none

/-- The opening of the room that asked. -/
def Fetch.opened : Fetch → Option ℕ
  | .page _ opened _ => some opened
  | .window _ _ opened _ => some opened
  | .sent _ => none
  | .changed _ => none
  | .deleted _ => none
  | .reacts _ _ _ => none
  | .refused _ _ => none

/-- What is asked about is one of these: a message to land on need not be. -/
def Fetch.Within (all : List MessageId) : Fetch → Prop
  | .page before _ _ => ∀ bound, before = some bound → bound ∈ all
  | .window around replace _ _ => replace = false → around ∈ all
  | .sent _ => True
  | .changed _ => True
  | .deleted _ => True
  | .reacts _ _ _ => True
  | .refused _ _ => True

/-- An answer, as far as which messages it brings goes. -/
def Fetch.Answered (all : List MessageId) (page : List Held) : Fetch → Prop
  | .page before _ _ => ids page = pageIds all before
  | .window around _ _ _ => ids page = windowIds all around
  | .sent id => ids page = [id] ∧ id ∈ all
  | .changed id => ids page = [id] ∧ id ∈ all
  | .deleted _ => True
  | .reacts _ _ _ => True
  | .refused _ _ => True

/-- What holds of an opening while it waits: the newest page is one for the end of the room,
and brings what was delivered unless that is held; else what is asked about is held. -/
def Fetch.Waits (all told : List MessageId) (stream : Stream) (answer : Option Reading) :
    Fetch → Prop
  | .page none _ _ => stream.atEnd = true ∧
      ∀ r, answer = some r → ∀ x ∈ told, x ∈ stream.ids ∨ x ∈ all.take r.read
  | .page (some bound) _ _ => bound ∈ stream.ids
  | .window around replace _ _ => replace = false → stream.atEnd = false ∧ around ∈ stream.ids
  | .sent _ => True
  | .changed _ => True
  | .deleted _ => True
  | .reacts _ _ _ => True
  | .refused _ _ => True

/-- A flight, in a room of which so much was told. -/
structure Flies (all told : List MessageId) (openings : ℕ) (stream : Option Stream)
    (flight : Flight) : Prop where
  within : flight.fetch.Within all
  read : ∀ r, flight.answer = some r → r.read ≤ all.length ∧
    flight.fetch.Within (all.take r.read) ∧ flight.fetch.Answered (all.take r.read) r.page
  numbered : ∀ n, flight.fetch.opened = some n → n ≤ openings
  waits : ∀ s, stream = some s → flight.fetch.opened = some s.opened →
    s.loading = true ∧ flight.fetch.Waits all told s flight.answer

/-- What every step of a run keeps, as far as its answers join on. -/
structure Stretched (st : State) : Prop where
  ascends : st.ids.Pairwise (· < ·)
  split : st.ids = st.delivered ++ st.frames.filterMap Frame.created
  fits : ∀ stream, st.stream = some stream → Fits st.ids st.delivered stream
  numbered : ∀ stream, st.stream = some stream → stream.opened ≤ st.openings
  flies : All st.flights (Flies st.ids st.delivered st.openings st.stream)
  apart : Apart st.flights fun flight => flight.fetch.opened

/-- A stream in place of another: nothing is waited for that wasn't, and all that is told
since is held. -/
structure Carries (told told' : List MessageId) (stream stream' : Stream) : Prop where
  opened : stream'.opened = stream.opened
  loading : stream'.loading = stream.loading
  atEnd : stream'.atEnd = stream.atEnd
  held : stream.ids ⊆ stream'.ids
  since : stream.atEnd = true → ∀ x ∈ told', x ∈ told ∨ x ∈ stream'.ids

namespace Flies
variable {all told told' : List MessageId} {openings : ℕ} {stream : Option Stream}
  {flight : Flight} {x : MessageId}

theorem within_mono {all' : List MessageId} {fetch : Fetch} (h : fetch.Within all)
    (hsub : all ⊆ all') : fetch.Within all' := by
  cases fetch with
  | page before opened tries => exact fun bound he => hsub (h bound he)
  | window around replace opened again => exact fun he => hsub (h he)
  | sent | changed | deleted | reacts | refused => trivial

/-- A message is committed. -/
theorem commits (h : Flies all told openings stream flight) :
    Flies (all ++ [x]) told openings stream flight where
  within := within_mono h.within (List.subset_append_left _ _)
  read r hr := by
    obtain ⟨hlen, hread⟩ := h.read r hr
    rw [List.take_append_of_le_length hlen, List.length_append]
    exact ⟨Nat.le_add_right_of_le hlen, hread⟩
  numbered := h.numbered
  waits s hs hopened := by
    obtain ⟨hloading, hwaits⟩ := h.waits s hs hopened
    refine ⟨hloading, ?_⟩
    cases hfetch : flight.fetch with
    | page before opened tries =>
      rw [hfetch] at hwaits
      cases before with
      | none =>
        refine ⟨hwaits.1, fun r hr => ?_⟩
        rw [List.take_append_of_le_length (h.read r hr).1]
        exact hwaits.2 r hr
      | some bound => exact hwaits
    | window around replace opened again =>
      rw [hfetch] at hwaits
      exact hwaits
    | sent | changed | deleted | reacts | refused => trivial

/-- The stream is another one, which carries what this one held. -/
theorem carries (h : Flies all told openings stream flight) {stream' : Option Stream}
    (hcarries : ∀ s', stream' = some s' → ∃ s, stream = some s ∧ Carries told told' s s') :
    Flies all told' openings stream' flight where
  within := h.within
  read := h.read
  numbered := h.numbered
  waits s' hs' hopened := by
    obtain ⟨s, hs, hc⟩ := hcarries s' hs'
    rw [hc.opened] at hopened
    obtain ⟨hloading, hwaits⟩ := h.waits s hs hopened
    refine ⟨hc.loading.trans hloading, ?_⟩
    cases hfetch : flight.fetch with
    | page before opened tries =>
      rw [hfetch] at hwaits
      cases before with
      | none =>
        obtain ⟨hend, hsince⟩ := hwaits
        refine ⟨hc.atEnd.trans hend, fun r hr x hx => ?_⟩
        rcases hc.since hend x hx with hold | hnew
        · exact (hsince r hr x hold).imp_left (@hc.held x)
        · exact .inl hnew
      | some bound => exact hc.held hwaits
    | window around replace opened again =>
      rw [hfetch] at hwaits
      intro hforward
      exact ⟨hc.atEnd.trans (hwaits hforward).1, hc.held (hwaits hforward).2⟩
    | sent | changed | deleted | reacts | refused => trivial

/-- Nothing that is held now waits for it. -/
theorem unawaited (h : Flies all told openings stream flight) {stream' : Option Stream}
    {openings' : ℕ} (hle : openings ≤ openings')
    (hnone : ∀ s', stream' = some s' → flight.fetch.opened ≠ some s'.opened) :
    Flies all told openings' stream' flight where
  within := h.within
  read := h.read
  numbered n hn := (h.numbered n hn).trans hle
  waits s' hs' hopened := absurd hopened (hnone s' hs')

end Flies

namespace Carries
variable {told : List MessageId} {stream stream' : Stream}

theorem refl (told : List MessageId) (stream : Stream) : Carries told told stream stream :=
  ⟨rfl, rfl, rfl, List.Subset.refl _, fun _ _ hx => .inl hx⟩

/-- As much is told as was. -/
theorem of_subset (hopened : stream'.opened = stream.opened)
    (hloading : stream'.loading = stream.loading) (hend : stream'.atEnd = stream.atEnd)
    (hheld : stream.ids ⊆ stream'.ids) : Carries told told stream stream' :=
  ⟨hopened, hloading, hend, hheld, fun _ _ hx => .inl hx⟩

end Carries

namespace Stretched
variable {st st' : State} {stream stream' : Stream} {flight : Flight} {fetch : Fetch} {i : ℕ}

theorem start : Stretched machine.start where
  ascends := List.Pairwise.nil
  split := rfl
  fits _ hs := by cases hs
  numbered _ hs := by cases hs
  flies := all_empty
  apart := by
    intro j k t u n hj
    simp [machine] at hj

theorem ends (h : Stretched st) (i : ℕ) : Stretched (st.ends i) where
  ascends := h.ascends
  split := h.split
  fits := h.fits
  numbered := h.numbered
  flies := h.flies.erase i
  apart := h.apart.erase i

/-- What is held is rewritten, or more is told and held. -/
theorem carries (h : Stretched st) (hids : st'.ids = st.ids)
    (hsplit : st'.ids = st'.delivered ++ st'.frames.filterMap Frame.created)
    (hflights : st'.flights = st.flights) (hopenings : st'.openings = st.openings)
    (hfits : ∀ s', st'.stream = some s' → Fits st.ids st'.delivered s')
    (hcarries : ∀ s', st'.stream = some s' →
      ∃ s, st.stream = some s ∧ Carries st.delivered st'.delivered s s') : Stretched st' where
  ascends := by
    rw [hids]
    exact h.ascends
  split := hsplit
  fits s' hs' := by
    rw [hids]
    exact hfits s' hs'
  numbered s' hs' := by
    obtain ⟨s, hs, hc⟩ := hcarries s' hs'
    rw [hc.opened, hopenings]
    exact h.numbered s hs
  flies := by
    rw [hids, hflights, hopenings]
    exact h.flies.imp fun flight hf => hf.carries hcarries
  apart := by
    rw [hflights]
    exact h.apart

/-- Nothing is waited for by a stream that isn't loading: it can be any other that fits. -/
theorem rests (h : Stretched st) (hst : st.stream = some stream)
    (hloading : stream.loading = false) (hopened : stream'.opened = stream.opened)
    (hfits : Fits st.ids st.delivered stream') : Stretched (st.put stream') where
  ascends := h.ascends
  split := h.split
  fits s' hs' := by
    cases hs'
    exact hfits
  numbered s' hs' := by
    cases hs'
    rw [hopened]
    exact h.numbered stream hst
  flies := h.flies.imp fun flight hf => hf.unawaited le_rfl fun s' hs' ho => by
    cases hs'
    rw [hopened] at ho
    have hbusy := (hf.waits stream hst ho).1
    rw [hloading] at hbusy
    cases hbusy
  apart := h.apart

/-- The answer an opening waits for has come, and no other is on its way to it. -/
theorem settles (h : Stretched st) (hi : st.flights[i]? = some flight)
    (hst : st.stream = some stream) (hflight : flight.fetch.opened = some stream.opened)
    (hopened : stream'.opened = stream.opened) (hfits : Fits st.ids st.delivered stream') :
    Stretched ((st.put stream').ends i) where
  ascends := h.ascends
  split := h.split
  fits s' hs' := by
    cases hs'
    exact hfits
  numbered s' hs' := by
    cases hs'
    rw [hopened]
    exact h.numbered stream hst
  flies := by
    intro j other hj
    have hj' : (st.flights.erase i)[j]? = some other := hj
    rw [erase_at] at hj'
    split at hj'
    · cases hj'
    · next hne =>
      refine (h.flies j other hj').unawaited le_rfl fun s' hs' ho => ?_
      cases hs'
      rw [hopened] at ho
      exact hne (h.apart j i other flight _ hj' hi ho hflight)
  apart := h.apart.erase i

/-- The room is dropped. -/
theorem gone (h : Stretched st) : Stretched { st with stream := none } where
  ascends := h.ascends
  split := h.split
  fits _ hs := by cases hs
  numbered _ hs := by cases hs
  flies := h.flies.imp fun flight hf => hf.unawaited le_rfl fun _ hs => by cases hs
  apart := h.apart

/-- Something is asked for that no other flight is to bring. -/
theorem asks (h : Stretched (st.ends i))
    (hflies : Flies st.ids st.delivered st.openings st.stream ⟨fetch, none⟩)
    (hapart : ∀ n, fetch.opened = some n →
      All (st.ends i).flights fun flight => flight.fetch.opened ≠ some n) :
    Stretched (st.asks i fetch) where
  ascends := h.ascends
  split := h.split
  fits := h.fits
  numbered := h.numbered
  flies := All.replace h.flies hflies
  apart := Apart.replace h.apart hapart

/-- Something is asked for that isn't a part of the history. -/
theorem asks_apart (h : Stretched (st.ends i)) (hwithin : fetch.Within st.ids)
    (hopened : fetch.opened = none) : Stretched (st.asks i fetch) := by
  apply h.asks
  · refine ⟨hwithin, fun r hr => ?_, fun n hn => ?_, fun s _ hn => ?_⟩
    · cases hr
    · have hn : fetch.opened = some n := hn
      rw [hopened] at hn
      cases hn
    · have hn : fetch.opened = some s.opened := hn
      rw [hopened] at hn
      cases hn
  · intro n hn
    rw [hopened] at hn
    cases hn

/-- A page or a window is asked for by a stream that waits for none. -/
theorem loads (h : Stretched (st.ends i)) (hst : st.stream = some stream)
    (hloading : stream.loading = false) (hopened : fetch.opened = some stream.opened)
    (hwithin : fetch.Within st.ids) (hwaits : fetch.Waits st.ids st.delivered stream none) :
    Stretched ((st.put { stream with loading := true }).asks i fetch) := by
  have hfits : Fits st.ids st.delivered { stream with loading := true } :=
    (h.fits stream hst).congr rfl rfl rfl (fun hl => by cases hl) rfl
  have hput : Stretched ((st.put { stream with loading := true }).ends i) :=
    h.rests hst hloading rfl hfits
  apply hput.asks
  · refine ⟨hwithin, fun r hr => ?_, fun n hn => ?_, fun s hs _ => ?_⟩
    · cases hr
    · have hn : fetch.opened = some n := hn
      rw [hopened] at hn
      cases hn
      exact h.numbered stream hst
    · cases hs
      refine ⟨rfl, ?_⟩
      cases fetch with
      | page before opened tries =>
        cases before with
        | none => exact hwaits
        | some bound => exact hwaits
      | window around replace opened again => exact hwaits
      | sent | changed | deleted | reacts | refused => trivial
  · intro n hn
    refine h.flies.imp fun flight hf ho => ?_
    rw [hopened] at hn
    cases hn
    have hbusy := (hf.waits stream hst ho).1
    rw [hloading] at hbusy
    cases hbusy

/-- A new opening: its number is nobody's. -/
theorem opens (h : Stretched (st.ends i)) (atEnd : Bool) {fetch : ℕ → Fetch}
    (hopened : ∀ n, (fetch n).opened = some n) (hwithin : ∀ n, (fetch n).Within st.ids)
    (hwaits : ∀ n, (fetch n).Waits st.ids st.delivered ⟨[], false, atEnd, true, false, n⟩ none) :
    Stretched (opening st i atEnd fetch) := by
  have hnew : All (st.ends i).flights fun flight =>
      flight.fetch.opened ≠ some (st.openings + 1) := by
    refine h.flies.imp fun flight hf ho => ?_
    have hle : st.openings + 1 ≤ st.openings := hf.numbered _ ho
    omega
  have hput : Stretched ((State.put { st with openings := st.openings + 1 }
      ⟨[], false, atEnd, true, false, st.openings + 1⟩).ends i) := by
    refine ⟨h.ascends, h.split, fun s hs => ?_, fun s hs => ?_, fun j flight hj => ?_, h.apart⟩
    · cases hs
      exact Fits.opened atEnd _
    · cases hs
      exact le_rfl
    · refine (h.flies j flight hj).unawaited (Nat.le_succ _) fun s hs => ?_
      cases hs
      exact hnew j flight hj
  apply hput.asks
  · refine ⟨hwithin _, fun r hr => ?_, fun n hn => ?_, fun s hs _ => ?_⟩
    · cases hr
    · have hn : (fetch (st.openings + 1)).opened = some n := hn
      rw [hopened] at hn
      cases hn
      exact le_rfl
    · cases hs
      exact ⟨rfl, hwaits _⟩
  · intro n hn
    rw [hopened] at hn
    cases hn
    exact hnew

theorem openRoom (h : Stretched (st.ends i)) : Stretched (openRoom st i) := by
  unfold History.openRoom
  split
  · exact h
  · refine h.opens true (fun _ => rfl) (fun n bound hb => ?_) fun n => ⟨rfl, fun r hr => ?_⟩
    · cases hb
    · cases hr

theorem leaveWindow (h : Stretched (st.ends i)) : Stretched (leaveWindow st i) := by
  have hgone : Stretched (State.ends { st with stream := none } i) := h.gone
  exact hgone.openRoom

theorem openAround (h : Stretched (st.ends i)) (around : MessageId) :
    Stretched (openAround st i around) := by
  refine h.opens false (fun _ => rfl) (fun n hreplace => ?_) fun n hreplace => ?_
  · cases hreplace
  · cases hreplace

theorem head_mem {bound : MessageId} (hhead : stream.messages.head?.map Held.id = some bound) :
    bound ∈ stream.ids := by
  obtain ⟨first, hfirst, rfl⟩ := Option.map_eq_some_iff.mp hhead
  exact List.mem_map_of_mem (List.mem_of_head? hfirst)

theorem loadOlder (h : Stretched (st.ends i)) : Stretched (loadOlder st i) := by
  unfold History.loadOlder
  split
  · exact h
  · next stream hst =>
    have hfits : Fits st.ids st.delivered stream := h.fits stream hst
    split
    · exact h
    · next hbusy =>
      rw [Bool.or_eq_true, not_or, Bool.not_eq_true, Bool.not_eq_true] at hbusy
      refine h.loads hst hbusy.1 rfl (fun bound hb => hfits.real (head_mem hb)) ?_
      cases hhead : stream.messages.head?.map Held.id with
      | some bound => exact head_mem hhead
      | none =>
        -- a stream that isn't at its end and waits for nothing has an oldest message
        refine ⟨?_, fun r hr => by cases hr⟩
        rw [Option.map_eq_none_iff, List.head?_eq_none_iff] at hhead
        rw [← Bool.not_eq_false]
        intro haway
        apply hfits.away haway hbusy.1
        rw [Stream.ids, hhead]
        rfl

theorem loadNewer (h : Stretched (st.ends i)) (again : Bool) :
    Stretched (loadNewer st i again) := by
  unfold History.loadNewer
  split
  · exact h
  · next stream hst =>
    have hfits : Fits st.ids st.delivered stream := h.fits stream hst
    split
    · exact h
    · next hbusy =>
      rw [Bool.or_eq_true, not_or, Bool.not_eq_true, Bool.not_eq_true] at hbusy
      split
      · exact h
      · next newest hlast =>
        have hheld : newest.id ∈ stream.ids := List.mem_map_of_mem (List.mem_of_getLast? hlast)
        exact h.loads hst hbusy.1 rfl (fun _ => hfits.real hheld) fun _ => ⟨hbusy.2, hheld⟩

end Stretched

end Linger.History
