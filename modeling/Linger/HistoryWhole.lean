import Linger.HistoryFolds

/-! A room's history in a client, over whole runs: a stretch of the room with no gap in it that
ends and begins where it says, as long as what is folded in joins on to what is held. -/
namespace Linger.History
open FiniteMap StepMachine TaskPool Stretch
open Linger.Messages (Request Row)

section Steps
variable {st st' : State} {i : ℕ}

/-- The room once a message's row is another. -/
def rewritten (room : List Kept) (id : MessageId) (row : Row) : List Kept :=
  room.map fun one => if one.id = id then { one with row := row } else one

theorem ids_rewrittenRow (room : List Kept) (id : MessageId) (row : Row) :
    (rewritten room id row).map Kept.id = room.map Kept.id := by
  rw [rewritten, List.map_map]
  apply List.map_congr_left
  intro kept _
  dsimp only [Function.comp]
  split
  · rfl
  · rfl

/-- All that a change can do: nothing, or another row and a frame about it. -/
theorem change_cases (st : State) (id : MessageId) (request : Request) (now : ℕ) :
    (change st id request now = st ∧
      ∀ kept, st.find id = some kept → request.rewrite now kept.row = none) ∨
    ∃ kept row, st.find id = some kept ∧
      request.rewrite now kept.row = some row ∧
      change st id request now = { st with
        room := rewritten st.room id row
        frames := st.frames ++ [frameOf { kept with row := row } request] } := by
  unfold change
  cases hkept : st.find id with
  | none => exact .inl ⟨rfl, fun kept hk => by cases hk⟩
  | some kept =>
    cases hrow : request.rewrite now kept.row with
    | none =>
      refine .inl ⟨by simp only [hrow], fun other hk => ?_⟩
      cases hk
      exact hrow
    | some row => exact .inr ⟨kept, row, rfl, hrow, by simp only [hrow, rewritten]⟩

theorem ids_change (st : State) (id : MessageId) (request : Request) (now : ℕ) :
    (change st id request now).ids = st.ids := by
  rcases change_cases st id request now with ⟨h, -⟩ | ⟨kept, row, -, -, h⟩
  · rw [h]
  · rw [h]
    exact ids_rewrittenRow st.room id row

theorem created_frameOf (kept : Kept) (request : Request) :
    (frameOf kept request).created = none := by
  cases request with
  | edit | delete | setPin | addReaction | removeReaction | vote | closePoll => rfl

theorem created_change (st : State) (id : MessageId) (request : Request) (now : ℕ) :
    (change st id request now).frames.filterMap Frame.created =
      st.frames.filterMap Frame.created := by
  rcases change_cases st id request now with ⟨h, -⟩ | ⟨kept, row, -, -, h⟩
  · rw [h]
  · rw [h, List.filterMap_append, List.filterMap_cons_none (created_frameOf _ request)]
    exact List.append_nil _

/-- A change leaves all but the room's rows and the frames as they are. -/
theorem change_rest (st : State) (id : MessageId) (request : Request) (now : ℕ) :
    (change st id request now).flights = st.flights ∧
      (change st id request now).openings = st.openings ∧
      (change st id request now).stream = st.stream ∧
      (change st id request now).delivered = st.delivered := by
  rcases change_cases st id request now with ⟨h, -⟩ | ⟨kept, row, -, -, h⟩
  · rw [h]
    exact ⟨rfl, rfl, rfl, rfl⟩
  · rw [h]
    exact ⟨rfl, rfl, rfl, rfl⟩

namespace Stretched

theorem change (h : Stretched st) (id : MessageId) (request : Request) (now : ℕ) :
    Stretched (change st id request now) := by
  obtain ⟨hflights, hopenings, hstream, hdelivered⟩ := change_rest st id request now
  refine h.carries (ids_change st id request now) ?_ hflights hopenings (fun s hs => ?_)
    fun s hs => ?_
  · rw [ids_change, created_change, hdelivered]
    exact h.split
  · rw [hstream] at hs
    rw [hdelivered]
    exact h.fits s hs
  · rw [hstream] at hs
    rw [hdelivered]
    exact ⟨s, hs, .refl _ _⟩

/-- A message is committed after all there are. -/
theorem posts (h : Stretched st) {kept : Kept} (hnew : ∀ one ∈ st.room, one.id < kept.id) :
    Stretched { st with
      room := st.room ++ [kept], frames := st.frames ++ [.create kept.told] } := by
  have hlt (y : MessageId) (hy : y ∈ st.ids) : y < kept.id := by
    obtain ⟨one, hone, rfl⟩ := List.mem_map.mp hy
    exact hnew one hone
  have hids : (st.room ++ [kept]).map Kept.id = st.ids ++ [kept.id] := List.map_append
  refine ⟨?_, ?_, fun s hs => ?_, h.numbered, ?_, h.apart⟩
  · rw [State.ids, hids]
    refine List.pairwise_append.mpr ⟨h.ascends, List.pairwise_singleton _ _, fun y hy x hx => ?_⟩
    rw [List.mem_singleton.mp hx]
    exact hlt y hy
  · rw [State.ids, hids, h.split, List.filterMap_append, List.append_assoc]
    rfl
  · rw [State.ids, hids]
    exact (h.fits s hs).commits hlt
  · rw [State.ids, hids]
    exact h.flies.imp fun flight hf => hf.commits

/-- The server reads for an answer. -/
theorem reads (h : Stretched st) {fetch : Fetch} {page : List Held}
    (hi : st.flights[i]? = some ⟨fetch, none⟩) (hread : reading st.room fetch = some page) :
    Stretched { st with flights := st.flights.insert i ⟨fetch, some ⟨page, st.room.length⟩⟩ } := by
  have hflies := h.flies i _ hi
  have hlen : st.ids.length = st.room.length := List.length_map Kept.id
  have hall : st.ids.take st.room.length = st.ids := List.take_of_length_le (le_of_eq hlen)
  have hfound (id : MessageId) (hfind : (st.room.find? fun kept => kept.id = id).map
      (fun kept => [kept.told]) = some page) : ids page = [id] ∧ id ∈ st.ids := by
    obtain ⟨kept, hkept, rfl⟩ := Option.map_eq_some_iff.mp hfind
    have hid : kept.id = id := by simpa using List.find?_some hkept
    rw [← hid]
    exact ⟨rfl, List.mem_map_of_mem (List.mem_of_find?_eq_some hkept)⟩
  have hanswered : fetch.Answered st.ids page := by
    cases fetch with
    | page before opened tries =>
      cases hread
      exact ids_page
    | window around replace opened again =>
      cases hread
      exact ids_window
    | sent id => exact hfound id hread
    | changed id => exact hfound id hread
    | deleted | reacts | refused => trivial
  refine ⟨h.ascends, h.split, h.fits, h.numbered, h.flies.insert i ?_, h.apart.insert i ?_⟩
  · refine ⟨hflies.within, fun r hr => ?_, hflies.numbered, fun s hs ho => ?_⟩
    · cases hr
      exact ⟨le_of_eq hlen.symm, hall.symm ▸ hflies.within, hall.symm ▸ hanswered⟩
    · obtain ⟨hloading, hwaits⟩ := hflies.waits s hs ho
      refine ⟨hloading, ?_⟩
      cases fetch with
      | page before opened tries =>
        cases before with
        | none =>
          refine ⟨hwaits.1, fun r hr x hx => .inr ?_⟩
          cases hr
          exact hall.symm ▸ h.delivered_subset hx
        | some bound => exact hwaits
      | window around replace opened again => exact hwaits
      | sent | changed | deleted | reacts | refused => trivial
  · intro n hn j other hj ho
    exact h.apart j i other _ n hj hi ho hn

/-- What is kept of a stream that is trimmed. -/
theorem trims (h : Stretched st) {first last : MessageId}
    (hok : Joined st (.trims first last)) : Stretched (trimHistory st first last) := by
  unfold trimHistory
  split
  · exact h
  · next stream hst =>
    split
    · exact h
    · next start stop hrange =>
      rw [Joined, hst] at hok
      dsimp only at hok
      rw [hrange] at hok
      have hfits := h.fits stream hst
      obtain ⟨-, -, hloading⟩ := Fits.trimRange_some hrange
      refine h.rests hst hloading rfl (hfits.trims h.ascends hrange Fits.ids_range rfl rfl
        fun hend hstop x hx b hb hxb hfrom => ?_)
      have hheld : x ∈ stream.ids := by
        by_contra hnot
        by_cases hold : x ∈ st.delivered
        · -- it was told of, and what was told of is held from the first that is kept
          rcases hfrom with ⟨hzero, hstart⟩ | ⟨a, ha, hax⟩
          · obtain ⟨c, hc, hcx⟩ := hfits.begun hend hstart x hold
            exact hnot (hfits.ended hend x hold c hc hcx)
          · exact hnot (hfits.ended hend x hold a (Fits.keptIds_subset ha) hax)
        · obtain ⟨hfirst, hbelow⟩ := hok hend hstop x hx hold hnot b hb hxb
          rcases hfrom with hboth | ⟨a, ha, hax⟩
          · exact hfirst hboth
          · exact absurd hax (not_le.mpr (hbelow a ha))
      have htake := mem_take_of_le hfits.ascends hheld (List.mem_of_mem_drop hb) hxb
      rcases hfrom with ⟨hzero, -⟩ | ⟨a, ha, hax⟩
      · rw [Fits.keptIds, hzero]
        exact htake
      · exact mem_drop_of_le (hfits.ascends.sublist (List.take_sublist _ _)) htake ha hax

theorem releases (h : Stretched st) (waiting : Bool) :
    Stretched (releaseOtherRooms st waiting) := by
  unfold releaseOtherRooms
  split
  · exact h
  · next stream hst =>
    split
    · exact h
    · next hbusy =>
      rw [Bool.or_eq_true, not_or, Bool.not_eq_true] at hbusy
      split
      · exact h.gone
      · next hend =>
        rw [Bool.not_eq_true', Bool.not_eq_false] at hend
        split
        · next hlong =>
          exact h.rests hst hbusy.1 rfl ((h.fits stream hst).releases hend hlong rfl rfl hend)
        · exact h

/-- Somebody waits for the answer, if it is to this client. -/
theorem awaits (h : Stretched st) (answer : Option ℕ) {fetch : Option Fetch}
    (hwithin : ∀ f, fetch = some f → f.Within st.ids ∧ f.opened = none) :
    Stretched (st.awaits answer fetch) := by
  unfold State.awaits
  split
  · next i f => exact (h.ends i).asks_apart (hwithin f rfl).1 (hwithin f rfl).2
  · exact h

theorem delivers (h : Stretched st) {now : ℕ} (hs : step st (.delivers now) = some st') :
    Stretched st' := by
  rw [step] at hs
  split at hs
  · cases hs
  · next frame frames hframes =>
    have hpopped (hframe : frame.created = none) : Stretched { st with frames := frames } := by
      refine ⟨h.ascends, ?_, h.fits, h.numbered, h.flies, h.apart⟩
      have hsplit := h.split
      rw [hframes, List.filterMap_cons_none hframe] at hsplit
      exact hsplit
    have hdelivered : (apply { st with frames := frames } now frame).delivered = st.delivered := by
      cases frame with
      | create message =>
        rw [apply]
        split
        · rfl
        · rfl
      | update | delete | reaction => rfl
    cases frame with
    | create message =>
      cases hs
      rw [hdelivered]
      exact h.toldOf now hframes
    | update message =>
      cases hs
      exact (hpopped rfl).tells now rfl
    | delete id =>
      cases hs
      exact (hpopped rfl).tells now rfl
    | reaction id group =>
      cases hs
      exact (hpopped rfl).tells now rfl

theorem step (h : Stretched st) {act : Act} (hok : Joined st act) (hs : step st act = some st') :
    Stretched st' := by
  cases act with
  | posts kept answer =>
    rw [History.step] at hs
    split at hs
    · next hfresh =>
      cases hs
      rw [Bool.and_eq_true, List.all_eq_true] at hfresh
      refine (h.posts fun one hone => of_decide_eq_true (hfresh.1 one hone)).awaits answer ?_
      rintro f ⟨⟩
      exact ⟨trivial, rfl⟩
    · cases hs
  | changes id request now answer =>
    rw [History.step] at hs
    split at hs
    · cases hs
      refine (h.change id request now).awaits answer fun f hf => ?_
      -- Reactions are asked for with `reacts`, so nothing is awaited of one here.
      cases request with
      | addReaction | removeReaction => cases hf
      | edit | delete | setPin | vote | closePoll =>
        cases hf
        exact ⟨trivial, rfl⟩
    · cases hs
  | delivers now => exact h.delivers hs
  | blocks blocked =>
    cases hs
    exact ⟨h.ascends, h.split, h.fits, h.numbered, h.flies, h.apart⟩
  | opens i => exact of_guarded (fun _ => (h.ends i).openRoom) hs
  | opensAround i around => exact of_guarded (fun _ => (h.ends i).openAround around) hs
  | loadsOlder i => exact of_guarded (fun _ => (h.ends i).loadOlder) hs
  | loadsNewer i => exact of_guarded (fun _ => (h.ends i).loadNewer true) hs
  | leaves i => exact of_guarded (fun _ => (h.ends i).leaveWindow) hs
  | trims first last =>
    cases hs
    exact h.trims hok
  | releases waiting =>
    cases hs
    exact h.releases waiting
  | reacts i id userId key on before =>
    have hshown := h.rewrites id fun message =>
      regroup (toggled message.reactions key userId on) message
    have hasked : Stretched (reactTo st i id userId key on before) :=
      (hshown.ends i).asks_apart trivial rfl
    exact of_guarded (fun _ => hasked) hs
  | reads i =>
    rw [History.step] at hs
    split at hs
    · next fetch hi =>
      obtain ⟨page, hread, rfl⟩ := Option.map_eq_some_iff.mp hs
      exact h.reads hi hread
    · cases hs
  | serves i now lost =>
    rw [History.step] at hs
    split at hs
    · next id request before answer hi =>
      have hserved := (h.change id request now).ends i
      -- An answer that is lost is a refusal still to land.
      cases lost with
      | true =>
        cases hs
        exact hserved.asks_apart trivial rfl
      | false =>
        cases hs
        exact hserved
    · cases hs
  | lands i now =>
    obtain ⟨flight, hi, hs⟩ := Option.bind_eq_some_iff.mp hs
    refine h.lands hi (fun answer ha stream hst => ?_) hs
    rw [Joined, hi, hst] at hok
    obtain ⟨fetch, answered⟩ := flight
    cases ha
    exact hok
  | fails i =>
    obtain ⟨flight, hi, rfl⟩ := Option.map_eq_some_iff.mp hs
    exact h.fails hi

end Stretched

end Steps

instance (st : State) (stream : Stream) (answer : Reading) (fetch : Fetch) :
    Decidable (JoinsOn st stream answer fetch) :=
  match fetch with
  | .window around replace opened _ =>
    inferInstanceAs (Decidable (stream.opened = opened → (replace = true ∨ around ∈ stream.ids) →
      pageEnds around answer.page = true →
        missedOne st.newest (windowed stream replace answer.page) = false →
          st.delivered.length ≤ answer.read))
  | .sent id => inferInstanceAs (Decidable (stream.atEnd = true →
      id ∈ stream.ids ∨ id ∉ st.delivered))
  | .changed id =>
    inferInstanceAs (Decidable (id ∈ stream.ids ∨ stream.atEnd = true ∧ id ∉ st.delivered))
  | .page _ _ _ => isTrue trivial
  | .deleted _ => isTrue trivial
  | .reacts _ _ _ => isTrue trivial
  | .refused _ _ => isTrue trivial

instance (st : State) (stream : Stream) (start stop : ℕ) :
    Decidable (LetsGo st stream start stop) :=
  inferInstanceAs (Decidable (_ → _))

instance (st : State) (act : Act) : Decidable (Joined st act) := by
  unfold Joined
  split
  · split
    · infer_instance
    · infer_instance
  · split
    · infer_instance
    · split
      · infer_instance
      · infer_instance
  · infer_instance

/-- In every run whose answers join on to what is held, the history of a room that isn't
loading ascends, is of the room, has no gap in what was delivered, begins at the first of it
if it says so, and has all of it from there on if it says that it is at its end. -/
theorem history_has_no_gap {acts : List Act} {st : State} {stream : Stream}
    (hm : machine.Meets Joined acts) (hr : machine.run acts = some st)
    (hst : st.stream = some stream) (hloading : stream.loading = false) :
    stream.ids.Pairwise (· < ·) ∧ stream.ids ⊆ st.ids ∧ NoGap st.delivered stream.ids ∧
      (stream.atStart = true → ∀ x ∈ st.delivered, ∃ b ∈ stream.ids, b ≤ x) ∧
      (stream.atEnd = true → ToEnd st.delivered stream.ids) ∧
      (stream.ids = [] → stream.loaded = true → st.delivered = []) := by
  have h : Stretched st :=
    machine.invariant_of_meets Stretched.start (fun _ _ _ h hok hs => h.step hok hs) hm hr
  have hfits : Fits st.ids st.delivered stream := h.fits stream hst
  have haway (hend : stream.atEnd = false) : stream.ids ≠ [] := hfits.away hend hloading
  rcases Bool.eq_false_or_eq_true stream.atEnd with hend | hend
  · exact ⟨hfits.ascends, hfits.real, (hfits.ended hend).noGap, hfits.begun hend, hfits.ended,
      fun hnil hloaded => hfits.loadedSome hloaded hend hnil⟩
  · refine ⟨hfits.ascends, hfits.real, (hfits.whole hend).mono h.delivered_subset,
      fun hstart x hx => ?_, hfits.ended, fun hnil => absurd hnil (haway hend)⟩
    obtain ⟨b, hb, hleast⟩ := hfits.awayBegun hend hstart
    exact ⟨b, hb, hleast x (h.delivered_subset hx)⟩

/-- A message that says so much, in a room. -/
def said (id : MessageId) (quiet : Bool) : Kept :=
  ⟨id, 7, quiet, ⟨[], none, none, none, [], [], none⟩⟩

/-- A room read around one of its messages, with two more committed and told of before. -/
def landing : List Act :=
  [.posts (said 0 false) none, .delivers 0, .posts (said 1 false) none, .delivers 0,
    .opensAround 0 0, .posts (said 2 true) none, .delivers 0, .reads 0, .lands 0 0]

theorem history_has_no_gap_landing : ∃ st stream, machine.run landing = some st ∧
    st.stream = some stream ∧ stream.ids = [0, 1, 2] ∧
      (stream.ids.Pairwise (· < ·) ∧ stream.ids ⊆ st.ids ∧ NoGap st.delivered stream.ids ∧
      (stream.atStart = true → ∀ x ∈ st.delivered, ∃ b ∈ stream.ids, b ≤ x) ∧
      (stream.atEnd = true → ToEnd st.delivered stream.ids) ∧
      (stream.ids = [] → stream.loaded = true → st.delivered = [])) :=
  ⟨_, _, rfl, rfl, rfl, @history_has_no_gap landing _ _ (by decide +kernel) rfl rfl rfl⟩

/-- A quiet line is told of while a window is on the wire that was read before it: the window
says that it is at the end of the room, and the line isn't in it. -/
theorem quiet_line_missed : ∃ st stream, machine.run
      [.posts (said 0 false) none, .delivers 0, .opensAround 0 0, .reads 0,
        .posts (said 1 true) none, .delivers 0, .lands 0 0] = some st ∧
    st.stream = some stream ∧ stream.loading = false ∧ stream.atEnd = true ∧
      st.delivered = [0, 1] ∧ stream.ids = [0] :=
  ⟨_, _, rfl, rfl, rfl, rfl, rfl, rfl⟩

end Linger.History
