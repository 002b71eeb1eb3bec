import Linger.HistoryFlights

/-! What a client folds into a room's history, and lets go of: frames, pages, windows and the
answers to what it sent and changed, each where it joins on to what is held. -/
namespace Linger.History
open FiniteMap

/-- An answer joins on to what is held. One to what was sent or changed is to a message that
is held, or that the end of the room hasn't been told of. A window said to end where the room
does has all that was told of by then. -/
def JoinsOn (st : State) (stream : Stream) (answer : Reading) : Fetch → Prop
  | .window around replace opened _ =>
    stream.opened = opened → (replace = true ∨ around ∈ stream.ids) →
      pageEnds around answer.page = true →
        missedOne st.newest (windowed stream replace answer.page) = false →
          st.delivered.length ≤ answer.read
  | .sent id => stream.atEnd = true → id ∈ stream.ids ∨ id ∉ st.delivered
  | .changed id => id ∈ stream.ids ∨ stream.atEnd = true ∧ id ∉ st.delivered
  | .page _ _ _ => True
  | .deleted _ => True
  | .reacts _ _ _ => True
  | .refused _ _ => True

/-- What is let go of at the newer end leaves nothing among what is kept that is still to be
told of, and isn't held. -/
def LetsGo (st : State) (stream : Stream) (start stop : ℕ) : Prop :=
  stream.atEnd = true → stop ≠ stream.messages.length →
    ∀ x ∈ st.ids, x ∉ st.delivered → x ∉ stream.ids → ∀ b ∈ Fits.keptIds stream start stop, x ≤ b →
      ¬ (start = 0 ∧ stream.atStart = true) ∧ ∀ a ∈ Fits.keptIds stream start stop, x < a

def Joined (st : State) : Act → Prop
  | .lands i _ =>
    match st.flights[i]?, st.stream with
    | some ⟨fetch, some answer⟩, some stream => JoinsOn st stream answer fetch
    | _, _ => True
  | .trims first last =>
    match st.stream with
    | none => True
    | some stream =>
      match trimRange stream first last with
      | none => True
      | some (start, stop) => LetsGo st stream start stop
  | _ => True

section Tells
variable {st : State} {stream : Stream} {held : List Held} {message : Held} {id : MessageId}

theorem ids_rewritten (list : List Held) (id : MessageId)
    (change : Messages.Message → Messages.Message) : ids (list.map fun held =>
      if held.id = id then { held with message := change held.message } else held) = ids list := by
  rw [ids, ids, List.map_map]
  apply List.map_congr_left
  intro held _
  dsimp only [Function.comp]
  split
  · rfl
  · rfl

theorem rewrite_ids (stream : Stream) (id : MessageId)
    (change : Messages.Message → Messages.Message) : (stream.rewrite id change).ids = stream.ids :=
  ids_rewritten stream.messages id change

theorem subset_merged : stream.ids ⊆ ids (mergeMessage stream.messages message) :=
  fun _ hx => mem_ids_mergeMessage.mpr (.inr hx)

namespace Stretched

theorem delivered_subset (h : Stretched st) : st.delivered ⊆ st.ids := by
  rw [h.split]
  exact List.subset_append_left _ _

theorem delivered_sorted (h : Stretched st) {x y : MessageId} (hx : x ∈ st.ids)
    (hnew : x ∉ st.delivered) (hy : y ∈ st.delivered) : y < x := by
  have hs := h.ascends
  rw [h.split] at hs hx
  exact (List.pairwise_append.mp hs).2.2 y hy x ((List.mem_append.mp hx).resolve_left hnew)

/-- What a stream is rewritten to carries what it held. -/
theorem withStream (h : Stretched st) {change : Stream → Stream}
    (hcarries : ∀ s, st.stream = some s → Carries st.delivered st.delivered s (change s))
    (hfits : ∀ s, st.stream = some s → Fits st.ids st.delivered (change s)) :
    Stretched (st.withStream change) := by
  refine h.carries rfl h.split rfl rfl (fun s' hs' => ?_) fun s' hs' => ?_
  · obtain ⟨s, hs, rfl⟩ := Option.map_eq_some_iff.mp hs'
    exact hfits s hs
  · obtain ⟨s, hs, rfl⟩ := Option.map_eq_some_iff.mp hs'
    exact ⟨s, hs, hcarries s hs⟩

/-- Which messages there are isn't changed with what one of them says. -/
theorem rewrites (h : Stretched st) (id : MessageId)
    (change : Messages.Message → Messages.Message) :
    Stretched (st.withStream fun stream => stream.rewrite id change) := by
  refine h.withStream (fun s _ => .of_subset rfl rfl rfl ?_) fun s hs => ?_
  · rw [rewrite_ids]
    exact List.Subset.refl _
  · exact (h.fits s hs).congr (rewrite_ids s id change) rfl rfl (fun hl => .inl hl) rfl

/-- A message that joins on is folded in. -/
theorem folds (h : Stretched st) (hst : st.stream = some stream) (hin : message.id ∈ st.ids)
    (hjoins : message.id ∈ stream.ids ∨ stream.atEnd = true ∧ message.id ∉ st.delivered) :
    Stretched (st.put { stream with messages := mergeMessage stream.messages message }) := by
  refine h.carries rfl h.split rfl rfl (fun s' hs' => ?_) fun s' hs' => ?_
  · cases hs'
    rcases hjoins with hheld | ⟨hend, hnew⟩
    · exact (h.fits stream hst).replaces hheld rfl rfl rfl rfl rfl
    · have hmerged : Fits st.ids st.delivered
          { stream with messages := mergeMessage stream.messages message } ∧ _ :=
        (h.fits stream hst).merges hend hin (fun y hy => h.delivered_sorted hin hnew hy) rfl rfl rfl
      exact hmerged.1
  · cases hs'
    exact ⟨stream, hst, .of_subset rfl rfl rfl subset_merged⟩

/-- A frame that tells of no new message. -/
theorem tells (h : Stretched st) (now : ℕ) {frame : Frame} (hframe : frame.created = none) :
    Stretched (apply st now frame) := by
  cases frame with
  | create message => cases hframe
  | update message =>
    refine h.withStream (fun s _ => ?_) fun s hs => ?_
    · split
      · exact .of_subset rfl rfl rfl subset_merged
      · exact .refl _ _
    · split
      · next hholds => exact (h.fits s hs).replaces (holds_iff.mp hholds) rfl rfl rfl rfl rfl
      · exact h.fits s hs
  | delete id => exact h.rewrites id _
  | reaction id group => exact h.rewrites id _

/-- A new message is told of. -/
theorem toldOf (h : Stretched st) {frames : List Frame} (now : ℕ)
    (hframes : st.frames = .create message :: frames) :
    Stretched ({ apply { st with frames := frames } now (.create message) with
      delivered := st.delivered ++ [message.id] } : State) := by
  have hsplit : st.ids =
      st.delivered ++ [message.id] ++ frames.filterMap Frame.created := by
    rw [h.split, hframes, List.append_assoc]
    rfl
  have hin : message.id ∈ st.ids := by
    rw [hsplit]
    simp
  have hs := h.ascends
  rw [hsplit, List.append_assoc] at hs
  have hnew (y : MessageId) (hy : y ∈ st.delivered) : y < message.id :=
    (List.pairwise_append.mp hs).2.2 y hy message.id (by simp)
  -- the newest known id is nothing the history is read by
  have hstate {st' : State}
      (hst' : st' = apply { st with frames := frames } now (.create message)) :
      st'.room = st.room ∧ st'.frames = frames ∧ st'.flights = st.flights ∧
        st'.openings = st.openings ∧ st'.stream = st.stream.map fun stream =>
          if holds stream.messages message.id || stream.atEnd then
            { stream with messages := mergeMessage stream.messages message }
          else stream := by
    rw [hst']
    unfold apply
    dsimp only
    split
    · exact ⟨rfl, rfl, rfl, rfl, rfl⟩
    · exact ⟨rfl, rfl, rfl, rfl, rfl⟩
  obtain ⟨hroom, hrest, hflights, hopenings, hstream⟩ := hstate rfl
  refine h.carries (congrArg (List.map Kept.id) hroom) ?_ hflights hopenings (fun s' hs' => ?_)
    fun s' hs' => ?_
  · dsimp only
    rw [hrest, State.ids, hroom]
    exact hsplit
  · have hs' := hstream.symm.trans hs'
    obtain ⟨s, hs, rfl⟩ := Option.map_eq_some_iff.mp hs'
    have hfits := h.fits s hs
    rcases Bool.eq_false_or_eq_true s.atEnd with hend | hend
    · rw [if_pos (by rw [hend, Bool.or_true])]
      have hmerged : _ ∧ Fits st.ids (st.delivered ++ [message.id])
          { s with messages := mergeMessage s.messages message } :=
        hfits.merges hend hin hnew rfl rfl rfl
      exact hmerged.2
    · split
      · next hholds =>
        rw [hend, Bool.or_false] at hholds
        have hreplaced : Fits st.ids st.delivered
            { s with messages := mergeMessage s.messages message } :=
          hfits.replaces (holds_iff.mp hholds) rfl rfl rfl rfl rfl
        exact hreplaced.drops hend message.id
      · exact hfits.drops hend message.id
  · have hs' := hstream.symm.trans hs'
    obtain ⟨s, hs, rfl⟩ := Option.map_eq_some_iff.mp hs'
    refine ⟨s, hs, ?_⟩
    split
    · refine ⟨rfl, rfl, rfl, subset_merged, fun _ x hx => ?_⟩
      refine (List.mem_append.mp hx).imp id fun hone => ?_
      rw [List.mem_singleton.mp hone]
      exact mem_ids_mergeMessage.mpr (.inl rfl)
    · next hnot =>
      refine ⟨rfl, rfl, rfl, List.Subset.refl _, fun hend => ?_⟩
      rw [hend, Bool.or_true] at hnot
      exact absurd rfl hnot

end Stretched

end Tells

section Lands
variable {st : State} {stream : Stream} {flight : Flight} {answer : Reading} {i opened : ℕ}

theorem stillOpen_some (h : st.stillOpen opened = some stream) :
    st.stream = some stream ∧ stream.opened = opened := by
  obtain ⟨hst, hopened⟩ := Option.filter_eq_some_iff.mp h
  exact ⟨hst, of_decide_eq_true hopened⟩

theorem missedOne_nil (newest : Option MessageId) : missedOne newest [] = false := by
  cases newest with
  | none => rfl
  | some known => rfl

namespace Stretched

/-- What is waited for didn't come, or no longer joins on. -/
theorem givesUp (h : Stretched st) (hi : st.flights[i]? = some flight)
    (hst : st.stream = some stream) (hflight : flight.fetch.opened = some stream.opened)
    (hsome : stream.ids ≠ [] ∨ stream.atEnd = true) :
    Stretched ((st.put { stream with loading := false }).ends i) :=
  h.settles hi hst hflight rfl ((h.fits stream hst).congr rfl rfl rfl (fun _ => .inr hsome) rfl)

theorem fetchPage (h : Stretched st) {before : Option MessageId} {tries : ℕ}
    (hi : st.flights[i]? = some ⟨.page before opened tries, some answer⟩) :
    Stretched (fetchPage st i before opened answer.page) := by
  have hflies := h.flies i _ hi
  obtain ⟨-, hwithin, hpage⟩ := hflies.read answer rfl
  unfold History.fetchPage
  split
  · exact h.ends i
  · next stream hopen =>
    obtain ⟨hst, hopened⟩ := stillOpen_some hopen
    have hflight : (Fetch.page before opened tries).opened = some stream.opened :=
      congrArg some hopened.symm
    have hwaits := (hflies.waits stream hst hflight).2
    have hfits := h.fits stream hst
    cases before with
    | none =>
      rw [Option.isSome_none, Bool.false_and, if_neg Bool.false_ne_true]
      exact h.settles hi hst hflight rfl
        (hfits.firstPage h.ascends hwaits.1 hpage (hwaits.2 answer rfl))
    | some bound =>
      split
      · exact h.givesUp hi hst hflight (.inl (List.ne_nil_of_mem hwaits))
      · next hjoins =>
        have hhead : stream.messages.head?.map Held.id = some bound := by
          simpa using hjoins
        exact h.settles hi hst hflight rfl (hfits.olderPage h.ascends h.delivered_subset hhead
          (hwithin bound rfl) hpage)

theorem fetchWindow (h : Stretched st) {around : MessageId} {replace again : Bool}
    (hi : st.flights[i]? = some ⟨.window around replace opened again, some answer⟩)
    (hjoins : ∀ stream, st.stream = some stream →
      JoinsOn st stream answer (.window around replace opened again)) :
    Stretched (fetchWindow st i around replace opened again answer.page) := by
  have hflies := h.flies i _ hi
  obtain ⟨-, hwithin, hpage⟩ := hflies.read answer rfl
  unfold History.fetchWindow
  split
  · exact h.ends i
  · next stream hopen =>
    obtain ⟨hst, hopened⟩ := stillOpen_some hopen
    have hflight : (Fetch.window around replace opened again).opened = some stream.opened :=
      congrArg some hopened.symm
    have hwaits := (hflies.waits stream hst hflight).2
    split
    · next hgone =>
      rw [Bool.and_eq_true, Bool.not_eq_true', Bool.not_eq_true'] at hgone
      exact h.givesUp hi hst hflight (.inl (List.ne_nil_of_mem (hwaits hgone.1).2))
    · next hheld =>
      have hthere : replace = true ∨ around ∈ stream.ids := by
        rw [Bool.and_eq_true, not_and_or, Bool.not_eq_true', Bool.not_eq_true',
          Bool.not_eq_false, Bool.not_eq_false] at hheld
        exact hheld.imp_right holds_iff.mp
      have hwindow : Fits.Windows st.ids stream around replace answer.page answer.read :=
        ⟨h.ascends, hpage, fun hforward =>
          ⟨(hwaits hforward).1, (hwaits hforward).2, hwithin hforward⟩⟩
      have hread (hends : pageEnds around answer.page = true)
          (hseen : (!missedOne st.newest (windowed stream replace answer.page)) = true) :
          st.delivered ⊆ st.ids.take answer.read := by
        rw [Bool.not_eq_true'] at hseen
        have hlen := hjoins stream hst hopened hthere hends hseen
        intro x hx
        rw [h.split, List.take_append, List.take_of_length_le hlen]
        exact List.mem_append_left _ hx
      have hsome (hmissed : (!missedOne st.newest (windowed stream replace answer.page)) = false) :
          windowed stream replace answer.page ≠ [] := by
        intro hnil
        rw [hnil, missedOne_nil] at hmissed
        cases hmissed
      have hlanded := h.settles hi hst hflight hopened.symm
        (hwindow.fits (h.fits stream hst) hread hsome opened)
      dsimp only
      split
      · exact hlanded.loadNewer false
      · exact hlanded

/-- What this client posted comes back: at the end of the room it is folded in. -/
theorem sendMessage (h : Stretched st) {message : Held} (hin : message.id ∈ st.ids)
    (hjoins : ∀ stream, st.stream = some stream → stream.atEnd = true →
      message.id ∈ stream.ids ∨ message.id ∉ st.delivered) :
    Stretched (sendMessage st i message) := by
  unfold History.sendMessage
  split
  · exact h.ends i
  · next stream hst =>
    split
    · exact (h.ends i).leaveWindow
    · next hend =>
      rw [Bool.not_eq_true', Bool.not_eq_false] at hend
      exact (h.folds hst hin ((hjoins stream hst hend).imp_right fun hnew => ⟨hend, hnew⟩)).ends i

theorem putChanged (h : Stretched st) {message : Held} (hin : message.id ∈ st.ids)
    (hjoins : ∀ stream, st.stream = some stream →
      message.id ∈ stream.ids ∨ stream.atEnd = true ∧ message.id ∉ st.delivered) :
    Stretched (putChanged st i message) := by
  unfold History.putChanged State.withStream
  cases hst : st.stream with
  | none => exact h.gone.ends i
  | some stream => exact (h.folds hst hin (hjoins stream hst)).ends i

theorem ids_singleton {page : List Held} {message : Held} {id : MessageId}
    (hpage : ids page = [id]) (hhead : page.head? = some message) : message.id = id := by
  obtain ⟨rest, rfl⟩ := List.head?_eq_some_iff.mp hhead
  exact (List.cons.inj hpage).1

theorem lands (h : Stretched st) {st' : State} {now : ℕ} (hi : st.flights[i]? = some flight)
    (hjoins : ∀ answer, flight.answer = some answer → ∀ stream, st.stream = some stream →
      JoinsOn st stream answer flight.fetch)
    (hs : land st i now flight = some st') : Stretched st' := by
  obtain ⟨fetch, answered⟩ := flight
  have hflies := h.flies i _ hi
  cases answered with
  | none => cases hs
  | some answer =>
    have hjoins := hjoins answer rfl
    have hread := (hflies.read answer rfl).2.2
    cases fetch with
    | page before opened tries =>
      cases hs
      exact h.fetchPage hi
    | window around replace opened again =>
      cases hs
      exact h.fetchWindow hi hjoins
    | sent id =>
      obtain ⟨message, hhead, rfl⟩ := Option.map_eq_some_iff.mp hs
      have hid : message.id = id := ids_singleton hread.1 hhead
      exact h.sendMessage (hid ▸ List.mem_of_mem_take hread.2) (hid ▸ hjoins)
    | changed id =>
      obtain ⟨message, hhead, rfl⟩ := Option.map_eq_some_iff.mp hs
      have hid : message.id = id := ids_singleton hread.1 hhead
      exact h.putChanged (hid ▸ List.mem_of_mem_take hread.2) (hid ▸ hjoins)
    | deleted id =>
      cases hs
      exact (h.tells now rfl).ends i
    | reacts id request before => cases hs
    | refused id before =>
      cases hs
      exact (h.tells now rfl).ends i

/-- An answer doesn't come. -/
theorem fails (h : Stretched st) (hi : st.flights[i]? = some flight) :
    Stretched (fail st i flight.fetch) := by
  obtain ⟨fetch, answered⟩ := flight
  have hflies := h.flies i _ hi
  cases fetch with
  | page before opened tries =>
    dsimp only [fail]
    split
    · exact h.ends i
    · next stream tries hopen =>
      obtain ⟨hst, hopened⟩ := stillOpen_some hopen
      apply (h.ends i).asks
      · refine ⟨hflies.within, (fun r hr => by cases hr), hflies.numbered, fun s hs ho => ?_⟩
        obtain ⟨hloading, hwaits⟩ := hflies.waits s hs ho
        refine ⟨hloading, ?_⟩
        cases before with
        | none => exact ⟨hwaits.1, fun r hr => by cases hr⟩
        | some bound => exact hwaits
      · intro n hn j other hj ho
        have hj' : (st.flights.erase i)[j]? = some other := hj
        rw [erase_at] at hj'
        split at hj'
        · cases hj'
        · next hne => exact hne (h.apart j i other _ n hj' hi ho hn)
    · next stream hopen =>
      obtain ⟨hst, hopened⟩ := stillOpen_some hopen
      have hflight : (Fetch.page before opened 0).opened = some stream.opened :=
        congrArg some hopened.symm
      have hwaits := (hflies.waits stream hst hflight).2
      apply h.givesUp hi hst hflight
      cases before with
      | none => exact .inr hwaits.1
      | some bound => exact .inl (List.ne_nil_of_mem hwaits)
  | window around replace opened again =>
    dsimp only [fail]
    split
    · exact h.ends i
    · next stream hopen =>
      obtain ⟨hst, hopened⟩ := stillOpen_some hopen
      have hflight : (Fetch.window around replace opened again).opened = some stream.opened :=
        congrArg some hopened.symm
      have hwaits := (hflies.waits stream hst hflight).2
      split
      · exact (h.ends i).leaveWindow
      · next hforward =>
        rw [Bool.not_eq_true] at hforward
        exact h.givesUp hi hst hflight (.inl (List.ne_nil_of_mem (hwaits hforward).2))
  | reacts id request before => exact (h.ends i).asks_apart trivial rfl
  | sent | changed | deleted => exact h.ends i
  | refused id before => exact h

end Stretched

end Lands

end Linger.History
