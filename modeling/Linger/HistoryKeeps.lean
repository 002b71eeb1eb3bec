import Linger.HistoryWhole

/-! What every step keeps, whether or not what is folded in joins on: messages ascend by id,
wherever they are held or on their way, and are of the room. -/
namespace Linger.History
open FiniteMap StepMachine TaskPool
open Linger.Messages (Request ReactionGroup ReactionKey)

/-- The messages a client holds of the room. -/
def State.messages (st : State) : List Held := st.stream.elim [] Stream.messages

/-- The message a frame brings as a whole. -/
def Frame.message : Frame → Option Held
  | .create message => some message
  | .update message => some message
  | .delete _ => none
  | .reaction _ _ => none

/-- Nothing is new but a part of the history that is asked for under one number. -/
structure Keeps (st st' : State) (i : ℕ) : Prop where
  room : st'.room = st.room
  frames : st'.frames = st.frames
  messages : st'.messages.Sublist st.messages
  others : ∀ j, j ≠ i → st'.flights[j]? = st.flights[j]?
  asked : ∀ flight, st'.flights[i]? = some flight → st.flights[i]? = some flight ∨
    flight.answer = none ∧ flight.fetch.opened.isSome = true

structure Ordered (st : State) : Prop where
  ascends : st.ids.Pairwise (· < ·)
  held : (ids st.messages).Pairwise (· < ·)
  real : ids st.messages ⊆ st.ids
  framed : ∀ frame ∈ st.frames, ∀ message, frame.message = some message → message.id ∈ st.ids
  answered : All st.flights fun flight => ∀ r, flight.answer = some r →
    (ids r.page).Nodup ∧ ids r.page ⊆ st.ids
  reacts : All st.flights fun flight => ∀ id request before,
    flight.fetch = .reacts id request before →
      ∃ userId on, request = reactRequest userId before.key on

section Messages
variable {st : State} {stream : Stream} {message : Held} {id : MessageId}

theorem messages_of_some (hst : st.stream = some stream) : st.messages = stream.messages := by
  rw [State.messages, hst]
  rfl

theorem messages_create (now : ℕ) : (apply st now (.create message)).messages =
    if holds st.messages message.id || st.stream.any Stream.atEnd then
      mergeMessage st.messages message
    else st.messages := by
  have htold : (st.withStream fun stream =>
      if holds stream.messages message.id || stream.atEnd then
        { stream with messages := mergeMessage stream.messages message }
      else stream).messages = if holds st.messages message.id || st.stream.any Stream.atEnd then
        mergeMessage st.messages message
      else st.messages := by
    unfold State.withStream State.messages
    cases st.stream with
    | none => rfl
    | some stream =>
      simp only [Option.map_some, Option.elim_some, Option.any_some]
      exact apply_ite Stream.messages _ _ _
  rw [apply]
  split
  · exact htold
  · exact htold

theorem messages_update (now : ℕ) : (apply st now (.update message)).messages =
    if holds st.messages message.id then mergeMessage st.messages message else st.messages := by
  rw [apply]
  unfold State.withStream State.messages
  cases st.stream with
  | none => rfl
  | some stream =>
    simp only [Option.map_some, Option.elim_some]
    exact apply_ite Stream.messages _ _ _

theorem messages_rewrite (change : Messages.Message → Messages.Message) :
    (st.withStream fun stream => stream.rewrite id change).messages =
      st.messages.map fun held =>
        if held.id = id then { held with message := change held.message } else held := by
  unfold State.withStream State.messages
  cases st.stream with
  | none => rfl
  | some stream => rfl

/-- A frame changes nothing but what is held, and what the newest known is. -/
theorem apply_rest (st : State) (now : ℕ) (frame : Frame) :
    (apply st now frame).room = st.room ∧ (apply st now frame).frames = st.frames ∧
      (apply st now frame).flights = st.flights := by
  cases frame with
  | create message =>
    rw [apply]
    split
    · exact ⟨rfl, rfl, rfl⟩
    · exact ⟨rfl, rfl, rfl⟩
  | update | delete | reaction => exact ⟨rfl, rfl, rfl⟩

theorem trimHistory_flights (st : State) (first last : MessageId) :
    (trimHistory st first last).flights = st.flights := by
  unfold trimHistory
  split
  · rfl
  · split
    · rfl
    · rfl

theorem releaseOtherRooms_flights (st : State) (waiting : Bool) :
    (releaseOtherRooms st waiting).flights = st.flights := by
  unfold releaseOtherRooms
  split
  · rfl
  · split
    · rfl
    · split
      · rfl
      · split
        · rfl
        · rfl

end Messages

namespace Keeps
variable {st st' : State} {stream stream' : Stream} {fetch : Fetch} {i : ℕ}

theorem refl (st : State) (i : ℕ) : Keeps st st i :=
  ⟨rfl, rfl, List.Sublist.refl _, fun _ _ => rfl, fun _ hf => .inl hf⟩

theorem ends (st : State) (i : ℕ) : Keeps st (st.ends i) i where
  room := rfl
  frames := rfl
  messages := List.Sublist.refl _
  others j hne := by
    rw [State.ends, erase_at, if_neg hne]
  asked flight hf := by
    rw [State.ends, erase_at, if_pos rfl] at hf
    cases hf

theorem asks (st : State) (i : ℕ) (hfetch : fetch.opened.isSome = true) :
    Keeps st (st.asks i fetch) i where
  room := rfl
  frames := rfl
  messages := List.Sublist.refl _
  others j hne := by
    rw [State.asks, insert_at, if_neg hne]
  asked flight hf := by
    rw [State.asks, insert_at, if_pos rfl] at hf
    cases hf
    exact .inr ⟨rfl, hfetch⟩

/-- The stream is one that holds no more. -/
theorem put (h : Keeps (st.put stream') st' i) (hst : st.stream = some stream)
    (hsub : stream'.messages.Sublist stream.messages) : Keeps st st' i where
  room := h.room
  frames := h.frames
  messages := by
    rw [messages_of_some hst]
    exact h.messages.trans hsub
  others := h.others
  asked := h.asked

theorem gone (st : State) (i : ℕ) : Keeps st { st with stream := none } i :=
  ⟨rfl, rfl, List.nil_sublist _, fun _ _ => rfl, fun _ hf => .inl hf⟩

theorem openRoom (st : State) (i : ℕ) : Keeps st (openRoom st i) i := by
  unfold History.openRoom
  split
  · exact ends st i
  · have h := asks (State.put { st with openings := st.openings + 1 }
      ⟨[], false, true, true, false, st.openings + 1⟩) i
      (rfl : (Fetch.page none (st.openings + 1) firstPageRetries).opened.isSome = true)
    exact ⟨h.room, h.frames, List.nil_sublist _, h.others, h.asked⟩

theorem leaveWindow (st : State) (i : ℕ) : Keeps st (leaveWindow st i) i := by
  have h := openRoom { st with stream := none } i
  exact ⟨h.room, h.frames, h.messages.trans (List.nil_sublist _), h.others, h.asked⟩

theorem openAround (st : State) (i : ℕ) (around : MessageId) :
    Keeps st (openAround st i around) i := by
  have h := asks (State.put { st with openings := st.openings + 1 }
    ⟨[], false, false, true, false, st.openings + 1⟩) i
    (rfl : (Fetch.window around true (st.openings + 1) false).opened.isSome = true)
  exact ⟨h.room, h.frames, List.nil_sublist _, h.others, h.asked⟩

theorem loadOlder (st : State) (i : ℕ) : Keeps st (loadOlder st i) i := by
  unfold History.loadOlder
  split
  · exact ends st i
  · next stream hst =>
    split
    · exact ends st i
    · refine put (asks _ i ?_) hst (List.Sublist.refl _)
      rfl

theorem loadNewer (st : State) (i : ℕ) (again : Bool) : Keeps st (loadNewer st i again) i := by
  unfold History.loadNewer
  split
  · exact ends st i
  · next stream hst =>
    split
    · exact ends st i
    · split
      · exact ends st i
      · refine put (asks _ i ?_) hst (List.Sublist.refl _)
        rfl

/-- What was asked for didn't come; a reaction is something else. -/
theorem fails (st : State) (i : ℕ)
    (hreacts : ∀ id request before, fetch ≠ .reacts id request before)
    (hrefused : ∀ id before, fetch ≠ .refused id before) : Keeps st (fail st i fetch) i := by
  cases fetch with
  | page before opened tries =>
    dsimp only [fail]
    split
    · exact ends st i
    · exact asks st i rfl
    · next stream hopen =>
      exact put (ends _ i) (stillOpen_some hopen).1 (List.Sublist.refl _)
  | window around replace opened again =>
    dsimp only [fail]
    split
    · exact ends st i
    · next stream hopen =>
      split
      · exact leaveWindow st i
      · exact put (ends _ i) (stillOpen_some hopen).1 (List.Sublist.refl _)
  | sent | changed | deleted => exact ends st i
  | reacts id request before => exact absurd rfl (hreacts id request before)
  | refused id before => exact absurd rfl (hrefused id before)

theorem trims (st : State) (first last : MessageId) (i : ℕ) :
    Keeps st (trimHistory st first last) i := by
  unfold trimHistory
  split
  · exact refl st i
  · next stream hst =>
    split
    · exact refl st i
    · refine put (refl _ i) hst ?_
      exact (List.drop_sublist _ _).trans (List.take_sublist _ _)

theorem releases (st : State) (waiting : Bool) (i : ℕ) :
    Keeps st (releaseOtherRooms st waiting) i := by
  unfold releaseOtherRooms
  split
  · exact refl st i
  · next stream hst =>
    split
    · exact refl st i
    · split
      · exact gone st i
      · split
        · refine put (refl _ i) hst ?_
          exact List.drop_sublist _ _
        · exact refl st i

end Keeps

namespace Ordered
variable {st st' : State} {stream : Stream} {i : ℕ}

theorem start : Ordered machine.start where
  ascends := List.Pairwise.nil
  held := List.Pairwise.nil
  real := List.nil_subset _
  framed _ hf := by cases hf
  answered := all_empty
  reacts := all_empty

theorem keeps (h : Ordered st) (hk : Keeps st st' i) : Ordered st' := by
  have hids : st'.ids = st.ids := congrArg (List.map Kept.id) hk.room
  have hsub : (ids st'.messages).Sublist (ids st.messages) := hk.messages.map Held.id
  have hflights (j : ℕ) (flight : Flight) (hj : st'.flights[j]? = some flight) :
      st.flights[j]? = some flight ∨
        flight.answer = none ∧ flight.fetch.opened.isSome = true := by
    by_cases hji : j = i
    · rw [hji] at hj ⊢
      exact hk.asked flight hj
    · rw [hk.others j hji] at hj
      exact .inl hj
  refine ⟨?_, h.held.sublist hsub, ?_, ?_, fun j flight hj r hr => ?_,
    fun j flight hj id request before hfetch => ?_⟩
  · rw [hids]
    exact h.ascends
  · rw [hids]
    exact List.Subset.trans hsub.subset h.real
  · rw [hids, hk.frames]
    exact h.framed
  · rw [hids]
    rcases hflights j flight hj with hold | ⟨hnone, -⟩
    · exact h.answered j flight hold r hr
    · rw [hnone] at hr
      cases hr
  · rcases hflights j flight hj with hold | ⟨-, hsome⟩
    · exact h.reacts j flight hold id request before hfetch
    · rw [hfetch] at hsome
      cases hsome

/-- What is held is some of the room, each of it once. -/
theorem puts (h : Ordered st) (hheld : stream.ids.Pairwise (· < ·)) (hreal : stream.ids ⊆ st.ids) :
    Ordered (st.put stream) :=
  ⟨h.ascends, hheld, hreal, h.framed, h.answered, h.reacts⟩

/-- What the client itself asks the server to do is answered by its message, if at all. -/
theorem asks (h : Ordered st) {fetch : Fetch}
    (hreacts : ∀ id request before, fetch = .reacts id request before →
      ∃ userId on, request = reactRequest userId before.key on) : Ordered (st.asks i fetch) := by
  refine ⟨h.ascends, h.held, h.real, h.framed, h.answered.insert i fun r hr => ?_,
    h.reacts.insert i hreacts⟩
  cases hr

/-- A frame is applied. -/
theorem applies (h : Ordered st) (now : ℕ) {frame : Frame}
    (hframe : ∀ message, frame.message = some message → message.id ∈ st.ids) :
    Ordered (apply st now frame) := by
  have hmerged (message : Held) (hin : message.id ∈ st.ids) :
      (ids (mergeMessage st.messages message)).Pairwise (· < ·) ∧
        ids (mergeMessage st.messages message) ⊆ st.ids := by
    refine ⟨ascending_mergeMessage h.held, fun x hx => ?_⟩
    rcases mem_ids_mergeMessage.mp hx with rfl | hold
    · exact hin
    · exact h.real hold
  have hall : (ids (apply st now frame).messages).Pairwise (· < ·) ∧
      ids (apply st now frame).messages ⊆ st.ids := by
    cases frame with
    | create message =>
      rw [messages_create]
      split
      · exact hmerged message (hframe message rfl)
      · exact ⟨h.held, h.real⟩
    | update message =>
      rw [messages_update]
      split
      · exact hmerged message (hframe message rfl)
      · exact ⟨h.held, h.real⟩
    | delete id =>
      rw [apply, messages_rewrite, ids_rewritten]
      exact ⟨h.held, h.real⟩
    | reaction id group =>
      rw [apply, messages_rewrite, ids_rewritten]
      exact ⟨h.held, h.real⟩
  obtain ⟨hroom, hframes, hflights⟩ := apply_rest st now frame
  have hids : (apply st now frame).ids = st.ids := congrArg (List.map Kept.id) hroom
  refine ⟨?_, hall.1, ?_, ?_, ?_, ?_⟩
  · rw [hids]
    exact h.ascends
  · rw [hids]
    exact hall.2
  · rw [hids, hframes]
    exact h.framed
  · rw [hids, hflights]
    exact h.answered
  · rw [hflights]
    exact h.reacts

/-- A page or a window is folded in. -/
theorem merges (h : Ordered st) {page : List Held} (hnodup : (ids page).Nodup)
    (hreal : ids page ⊆ st.ids) (hst : st.stream = some stream) {stream' : Stream}
    (replace : Bool) (hm : stream'.messages = windowed stream replace page) :
    Ordered (st.put stream') := by
  have hheld := h.held
  have hin := h.real
  rw [messages_of_some hst] at hheld hin
  apply h.puts
  · rw [Stream.ids, hm]
    exact Fits.ascending_windowed hheld hnodup
  · intro x hx
    rw [Stream.ids, hm] at hx
    rcases (Fits.mem_ids_windowed rfl).mp hx with ⟨-, hold⟩ | hnew
    · exact hin hold
    · exact hreal hnew

theorem fetchPage (h : Ordered st) {before : Option MessageId} {opened : ℕ} {page : List Held}
    (hnodup : (ids page).Nodup) (hreal : ids page ⊆ st.ids) :
    Ordered (fetchPage st i before opened page) := by
  unfold History.fetchPage
  split
  · exact h.keeps (Keeps.ends st i)
  · next stream hopen =>
    have hst := (stillOpen_some hopen).1
    split
    · exact h.keeps ((Keeps.ends _ i).put hst (List.Sublist.refl _))
    · exact (h.merges hnodup hreal hst false rfl).keeps (Keeps.ends _ i)

theorem fetchWindow (h : Ordered st) {around : MessageId} {replace again : Bool} {opened : ℕ}
    {page : List Held} (hnodup : (ids page).Nodup) (hreal : ids page ⊆ st.ids) :
    Ordered (fetchWindow st i around replace opened again page) := by
  unfold History.fetchWindow
  split
  · exact h.keeps (Keeps.ends st i)
  · next stream hopen =>
    have hst := (stillOpen_some hopen).1
    split
    · exact h.keeps ((Keeps.ends _ i).put hst (List.Sublist.refl _))
    · dsimp only
      split
      · exact (h.merges hnodup hreal hst replace rfl).keeps (Keeps.loadNewer _ i false)
      · exact (h.merges hnodup hreal hst replace rfl).keeps (Keeps.ends _ i)

/-- What was sent or changed is folded in as it is answered. -/
theorem answers (h : Ordered st) {message : Held} (hin : message.id ∈ st.ids)
    (hst : st.stream = some stream) :
    Ordered (st.put { stream with messages := mergeMessage stream.messages message }) := by
  have hheld := h.held
  have hreal := h.real
  rw [messages_of_some hst] at hheld hreal
  refine h.puts (ascending_mergeMessage hheld) fun x hx => ?_
  rcases mem_ids_mergeMessage.mp hx with rfl | hold
  · exact hin
  · exact hreal hold

theorem lands (h : Ordered st) {now : ℕ} {flight : Flight} (hi : st.flights[i]? = some flight)
    (hs : land st i now flight = some st') : Ordered st' := by
  obtain ⟨fetch, answered⟩ := flight
  cases answered with
  | none => cases hs
  | some answer =>
    obtain ⟨hnodup, hreal⟩ := h.answered i _ hi answer rfl
    have hhead (message : Held) (hhead : answer.page.head? = some message) : message.id ∈ st.ids :=
      hreal (List.mem_map_of_mem (List.mem_of_head? hhead))
    cases fetch with
    | page before opened tries =>
      cases hs
      exact h.fetchPage hnodup hreal
    | window around replace opened again =>
      cases hs
      exact h.fetchWindow hnodup hreal
    | sent id =>
      obtain ⟨message, hmessage, rfl⟩ := Option.map_eq_some_iff.mp hs
      unfold sendMessage
      split
      · exact h.keeps (Keeps.ends st i)
      · next stream hst =>
        split
        · exact h.keeps (Keeps.leaveWindow st i)
        · exact (h.answers (hhead message hmessage) hst).keeps (Keeps.ends _ i)
    | changed id =>
      obtain ⟨message, hmessage, rfl⟩ := Option.map_eq_some_iff.mp hs
      unfold putChanged State.withStream
      cases hst : st.stream with
      | none => exact (h.keeps (Keeps.gone st i)).keeps (Keeps.ends _ i)
      | some stream => exact (h.answers (hhead message hmessage) hst).keeps (Keeps.ends _ i)
    | deleted id =>
      cases hs
      exact (h.applies now fun _ he => by cases he).keeps (Keeps.ends _ i)
    | reacts id request before => cases hs
    | refused id before =>
      cases hs
      exact (h.applies now fun _ he => by cases he).keeps (Keeps.ends _ i)

theorem fails (h : Ordered st) {flight : Flight} (hi : st.flights[i]? = some flight) :
    Ordered (fail st i flight.fetch) := by
  obtain ⟨fetch, answered⟩ := flight
  cases fetch with
  | reacts id request before => exact h.asks fun _ _ _ he => by cases he
  | refused id before => exact h
  | page | window | sent | changed | deleted =>
    exact h.keeps (Keeps.fails st i (fun _ _ _ he => by cases he) fun _ _ he => by cases he)

/-- More of the room is there, and frames about what is. -/
theorem grows (h : Ordered st) {room : List Kept} {frame : Frame}
    (hsub : st.ids ⊆ room.map Kept.id) (hs : (room.map Kept.id).Pairwise (· < ·))
    (hframe : ∀ message, frame.message = some message → message.id ∈ room.map Kept.id) :
    Ordered { st with room := room, frames := st.frames ++ [frame] } := by
  refine ⟨hs, h.held, List.Subset.trans h.real hsub, fun other ho message hm => ?_,
    h.answered.imp fun flight hf r hr => ⟨(hf r hr).1, List.Subset.trans (hf r hr).2 hsub⟩,
    h.reacts⟩
  rcases List.mem_append.mp ho with hold | hnew
  · exact hsub (h.framed other hold message hm)
  · rw [List.mem_singleton.mp hnew] at hm
    exact hframe message hm

theorem change (h : Ordered st) (id : MessageId) (request : Request) (now : ℕ) :
    Ordered (change st id request now) := by
  rcases change_cases st id request now with ⟨hst, -⟩ | ⟨kept, row, hkept, -, hst⟩
  · rw [hst]
    exact h
  · have hids := ids_rewrittenRow st.room id row
    have hin : kept.id ∈ st.ids := List.mem_map_of_mem (List.mem_of_find?_eq_some hkept)
    rw [hst]
    refine h.grows (hids ▸ List.Subset.refl _) (hids ▸ h.ascends) fun message hm => ?_
    rw [hids]
    cases request with
    | edit | setPin | vote | closePoll =>
      cases hm
      exact hin
    | delete | addReaction | removeReaction => cases hm

theorem posts (h : Ordered st) {kept : Kept} (hnew : ∀ one ∈ st.room, one.id < kept.id) :
    Ordered { st with room := st.room ++ [kept], frames := st.frames ++ [.create kept.told] } := by
  have hids : (st.room ++ [kept]).map Kept.id = st.ids ++ [kept.id] := List.map_append
  refine h.grows ?_ ?_ fun message hm => ?_
  · rw [hids]
    exact List.subset_append_left _ _
  · rw [hids]
    refine List.pairwise_append.mpr ⟨h.ascends, List.pairwise_singleton _ _, fun y hy x hx => ?_⟩
    obtain ⟨one, hone, rfl⟩ := List.mem_map.mp hy
    rw [List.mem_singleton.mp hx]
    exact hnew one hone
  · cases hm
    rw [hids]
    exact List.mem_append_right _ (List.mem_singleton_self _)

theorem nodup_singleton_ids {page : List Held} {kept : Kept} (hkept : kept ∈ st.room)
    (hpage : page = [kept.told]) : (ids page).Nodup ∧ ids page ⊆ st.ids := by
  rw [hpage]
  refine ⟨List.nodup_singleton _, fun x hx => ?_⟩
  rw [List.mem_singleton.mp hx]
  exact List.mem_map_of_mem hkept

theorem reads (h : Ordered st) {fetch : Fetch} {page : List Held}
    (hi : st.flights[i]? = some ⟨fetch, none⟩) (hread : reading st.room fetch = some page) :
    Ordered { st with flights := st.flights.insert i ⟨fetch, some ⟨page, st.room.length⟩⟩ } := by
  have hfound (id : MessageId) (hfind : (st.room.find? fun kept => kept.id = id).map
      (fun kept => [kept.told]) = some page) : (ids page).Nodup ∧ ids page ⊆ st.ids := by
    obtain ⟨kept, hkept, rfl⟩ := Option.map_eq_some_iff.mp hfind
    exact nodup_singleton_ids (List.mem_of_find?_eq_some hkept) rfl
  have hpage : (ids page).Nodup ∧ ids page ⊆ st.ids := by
    cases fetch with
    | page before opened tries =>
      cases hread
      rw [ids_page]
      exact ⟨nodup_pageIds h.ascends, fun x hx => (mem_of_mem_pageIds hx).1⟩
    | window around replace opened again =>
      cases hread
      rw [ids_window]
      exact ⟨nodup_windowIds h.ascends, fun x hx => mem_of_mem_windowIds hx⟩
    | sent id => exact hfound id hread
    | changed id => exact hfound id hread
    | deleted | refused =>
      cases hread
      exact ⟨List.nodup_nil, List.nil_subset _⟩
    | reacts => cases hread
  refine ⟨h.ascends, h.held, h.real, h.framed, h.answered.insert i fun r hr => ?_,
    h.reacts.insert i fun id request before he => h.reacts i _ hi id request before he⟩
  cases hr
  exact hpage

theorem awaits (h : Ordered st) (answer : Option ℕ) {fetch : Option Fetch}
    (hfetch : ∀ f, fetch = some f → ∀ id request before, f ≠ .reacts id request before) :
    Ordered (st.awaits answer fetch) := by
  unfold State.awaits
  split
  · next i f => exact h.asks fun id request before he => absurd he (hfetch f rfl id request before)
  · exact h

theorem delivers (h : Ordered st) {now : ℕ} (hs : History.step st (.delivers now) = some st') :
    Ordered st' := by
  rw [History.step] at hs
  split at hs
  · cases hs
  · next frame frames hframes =>
    have hpopped : Ordered { st with frames := frames } :=
      ⟨h.ascends, h.held, h.real,
        fun other ho => h.framed other (hframes ▸ List.mem_cons_of_mem _ ho), h.answered, h.reacts⟩
    have happlied := hpopped.applies now (h.framed frame (hframes ▸ List.mem_cons_self))
    cases frame with
    | create message =>
      cases hs
      exact ⟨happlied.ascends, happlied.held, happlied.real, happlied.framed, happlied.answered,
        happlied.reacts⟩
    | update | delete | reaction =>
      cases hs
      exact happlied

theorem reactTo (h : Ordered st) (id : MessageId) (userId : UserId) {key : ReactionKey} (on : Bool)
    {before : ReactionGroup} (hkey : before.key = key) :
    Ordered (reactTo st i id userId key on before) := by
  have hids : ids (st.withStream fun stream => stream.rewrite id fun message =>
      regroup (toggled message.reactions key userId on) message).messages = ids st.messages :=
    (congrArg ids (messages_rewrite _)).trans (ids_rewritten st.messages id fun message =>
      regroup (toggled message.reactions key userId on) message)
  have hshown : Ordered (st.withStream fun stream => stream.rewrite id fun message =>
      regroup (toggled message.reactions key userId on) message) :=
    ⟨h.ascends, hids ▸ h.held, hids ▸ h.real, h.framed, h.answered, h.reacts⟩
  apply hshown.asks
  rintro _ _ _ ⟨⟩
  exact ⟨userId, on, by rw [hkey]⟩

theorem step (h : Ordered st) {act : Act} (hs : History.step st act = some st') : Ordered st' := by
  cases act with
  | posts kept answer =>
    refine of_guarded (fun hfresh => ?_) hs
    rw [Bool.and_eq_true, List.all_eq_true] at hfresh
    refine (h.posts fun one hone => of_decide_eq_true (hfresh.1 one hone)).awaits answer ?_
    rintro f ⟨⟩ _ _ _ ⟨⟩
  | changes id request now answer =>
    refine of_guarded (fun _ => (h.change id request now).awaits answer fun f hf => ?_) hs
    cases request with
    | addReaction | removeReaction => cases hf
    | edit | delete | setPin | vote | closePoll =>
      cases hf
      rintro _ _ _ ⟨⟩
  | delivers now => exact h.delivers hs
  | blocks blocked =>
    cases hs
    exact ⟨h.ascends, h.held, h.real, h.framed, h.answered, h.reacts⟩
  | opens i => exact of_guarded (fun _ => h.keeps (Keeps.openRoom st i)) hs
  | opensAround i around => exact of_guarded (fun _ => h.keeps (Keeps.openAround st i around)) hs
  | loadsOlder i => exact of_guarded (fun _ => h.keeps (Keeps.loadOlder st i)) hs
  | loadsNewer i => exact of_guarded (fun _ => h.keeps (Keeps.loadNewer st i true)) hs
  | leaves i => exact of_guarded (fun _ => h.keeps (Keeps.leaveWindow st i)) hs
  | trims first last =>
    cases hs
    exact h.keeps (Keeps.trims st first last 0)
  | releases waiting =>
    cases hs
    exact h.keeps (Keeps.releases st waiting 0)
  | reacts i id userId key on before =>
    refine of_guarded (fun hfree => h.reactTo id userId on ?_) hs
    rw [Bool.and_eq_true, decide_eq_true_eq] at hfree
    exact hfree.2
  | reads i =>
    rw [History.step] at hs
    split at hs
    · next fetch hi =>
      obtain ⟨page, hread, rfl⟩ := Option.map_eq_some_iff.mp hs
      exact h.reads hi hread
    · cases hs
  | serves i now lost =>
    rw [History.step] at hs
    split at hs
    · next id request before answer hi =>
      have hserved := h.change id request now
      cases lost with
      | true =>
        cases hs
        exact hserved.asks fun _ _ _ he => by cases he
      | false =>
        cases hs
        exact hserved.keeps (Keeps.ends _ i)
    · cases hs
  | lands i now =>
    obtain ⟨flight, hi, hs⟩ := Option.bind_eq_some_iff.mp hs
    exact h.lands hi hs
  | fails i =>
    obtain ⟨flight, hi, rfl⟩ := Option.map_eq_some_iff.mp hs
    exact h.fails hi

end Ordered

end Linger.History
