import Linger.PutIn
import Linger.HistoryTells

/-! What a client holds of a message against the server's copy, part by part: once all frames
have come and nothing is on its way they agree, as long as each answer that was folded in said
what the server had by then or a frame was still to say it. -/
namespace Linger.History
open FiniteMap StepMachine TaskPool
open Linger.Messages (Request ReactionGroup ReactionKey Row Part)

/-- What an answer says of messages once it is folded in, as frames would. -/
def landed (st : State) (answer : Reading) : Fetch → List Frame
  | .page before opened _ =>
    match st.stillOpen opened with
    | none => []
    | some stream =>
      if before.isSome && stream.messages.head?.map Held.id ≠ before then []
      else answer.page.map .update
  | .window around replace opened _ =>
    match st.stillOpen opened with
    | none => []
    | some stream =>
      if !replace && !holds stream.messages around then [] else answer.page.map .update
  | .sent _ =>
    if st.stream.any Stream.atEnd then (answer.page.take 1).map .update else []
  | .changed _ => if st.stream.isSome then (answer.page.take 1).map .update else []
  | .deleted id => if holds st.messages id then [.delete id] else []
  | .reacts _ _ _ => []
  | .refused id before => if holds st.messages id then [.reaction id before] else []

/-- A step is true to a part of a message. An answer that is folded in says it as the server
has it by then, or it is still to be told; so does what is held, where a reaction is answered
that changed nothing; and a message that is pinned isn't deleted while it is held or told of. -/
def TrueTo (id : MessageId) (part : Part) (st : State) : Act → Prop
  | .changes other request _ _ =>
    match st.find id with
    | none => True
    | some kept => other = id → part = .pin → request = .delete → kept.row.pinnedAt = none ∨
        holds st.messages id = false ∧ ∀ frame ∈ st.frames, frame.tells id .pin = false
  | .serves i now lost =>
    match st.flights[i]?, st.find id with
    | some ⟨.reacts other request before, _⟩, some kept =>
      lost = false → other = id → part = .reactions before.key →
        request.rewrite now kept.row = none →
          (∀ held ∈ st.messages, held.id = id → held.message.Agrees kept.row part) ∨
            st.willTellBut i id part
    | _, _ => True
  | .lands i _ =>
    match st.flights[i]?, st.find id with
    | some ⟨fetch, some answer⟩, some kept =>
      ∀ frame ∈ landed st answer fetch, frame.tells id part = true →
        frame.word.Agrees kept.row part ∨ st.willTellBut i id part
    | _, _ => True
  | _ => True

/-- The last frame that tells the part says it as it is, and so does what is held unless it
is still to be told. -/
structure Agreeing (id : MessageId) (part : Part) (st : State) : Prop where
  last : ∀ kept, st.find id = some kept → ∀ frame,
    (st.frames.filter (Frame.tells id part)).getLast? = some frame →
      frame.word.Agrees kept.row part
  held : ∀ kept, st.find id = some kept → ∀ held ∈ st.messages, held.id = id →
    held.message.Agrees kept.row part ∨ st.willTell id part

section Waiting
variable {st st' : State} {id : MessageId} {part : Part} {i : ℕ} {flight : Flight}

theorem willTell_of_but (h : st.willTellBut i id part) : st.willTell id part :=
  h.imp_right has_of_others

theorem willTellBut_of (hi : ∀ flight, st.flights[i]? = some flight → flight.shows id part = false)
    (h : st.willTell id part) : st.willTellBut i id part := by
  refine h.imp_right fun hhas => ?_
  obtain ⟨j, other, hj, hshows⟩ := has_iff.mp hhas
  refine others_iff.mpr ⟨j, other, ?_, hj, hshows⟩
  rintro rfl
  rw [hi other hj] at hshows
  cases hshows

/-- What is still to be told whatever one flight brings is so once that has ended. -/
theorem willTell_keeps (hk : Keeps st st' i) (h : st.willTellBut i id part) :
    st'.willTell id part := by
  refine h.imp (fun ⟨frame, hmem, ht⟩ => ⟨frame, hk.frames ▸ hmem, ht⟩) fun hothers => ?_
  obtain ⟨j, other, hne, hj, hshows⟩ := others_iff.mp hothers
  exact has_iff.mpr ⟨j, other, (hk.others j hne).trans hj, hshows⟩

/-- Something else under way doesn't change what is to be told. -/
theorem willTell_asks (hi : ∀ flight, st.flights[i]? = some flight → flight.shows id part = false)
    {fetch : Fetch} (h : st.willTell id part) : (st.asks i fetch).willTell id part :=
  (willTellBut_of hi h).imp_right fun hothers => has_insert.mpr (.inr hothers)

theorem free_shows (hfree : st.free i = true) (flight : Flight)
    (hi : st.flights[i]? = some flight) : flight.shows id part = false := by
  rw [State.free, hi] at hfree
  cases hfree

end Waiting

namespace Agreeing
variable {st st' : State} {id : MessageId} {part : Part} {i : ℕ} {stream : Stream}

theorem start : Agreeing id part machine.start where
  last _ hkept := by cases hkept
  held _ hkept := by cases hkept

/-- No more is held than was, and what is to be told still is. -/
theorem fewer (h : Agreeing id part st) (hroom : st'.room = st.room)
    (hframes : st'.frames = st.frames) (hmessages : st'.messages.Sublist st.messages)
    (hwill : st.willTell id part → st'.willTell id part) : Agreeing id part st' := by
  have hfind : st'.find id = st.find id := by
    rw [State.find, State.find, hroom]
  refine ⟨fun kept hkept => ?_, fun kept hkept held hheld hid => ?_⟩
  · rw [hfind] at hkept
    rw [hframes]
    exact h.last kept hkept
  · rw [hfind] at hkept
    exact (h.held kept hkept held (hmessages.subset hheld) hid).imp_right hwill

theorem keeps (h : Agreeing id part st) (hk : Keeps st st' i)
    (hi : ∀ flight, st.flights[i]? = some flight → flight.shows id part = false) :
    Agreeing id part st' :=
  h.fewer hk.room hk.frames hk.messages fun hwill => willTell_keeps hk (willTellBut_of hi hwill)

/-- Nothing is asked for or answered. -/
theorem shrinks (h : Agreeing id part st) (hk : Keeps st st' i)
    (hflights : st'.flights = st.flights) : Agreeing id part st' := by
  refine h.fewer hk.room hk.frames hk.messages fun hwill => ?_
  rw [State.willTell, State.framed, hk.frames, hflights]
  exact hwill

/-- Something is asked for that shows nothing before its answer. -/
theorem asks (h : Agreeing id part st) {fetch : Fetch}
    (hi : ∀ flight, st.flights[i]? = some flight → flight.shows id part = false) :
    Agreeing id part (st.asks i fetch) where
  last := h.last
  held kept hkept held hheld hid :=
    (h.held kept hkept held hheld hid).imp_right (willTell_asks hi)

/-- What is held then was held, or says the part as it is. -/
theorem puts (h : Agreeing id part st) (hmem : ∀ held ∈ stream.messages, held.id = id →
      held ∈ st.messages ∨ ∀ kept, st.find id = some kept →
        held.message.Agrees kept.row part ∨ st.willTell id part) :
    Agreeing id part (st.put stream) where
  last := h.last
  held kept hkept held hheld hid := by
    rcases hmem held hheld hid with hold | hnew
    · exact h.held kept hkept held hold hid
    · exact hnew kept hkept

/-- A frame is sent that tells the part as it is now. -/
theorem tellsNew {room : List Kept} {frame : Frame} {kept : Kept}
    (hfind : (room.find? fun kept => kept.id = id) = some kept)
    (htells : frame.tells id part = true) (hword : frame.word.Agrees kept.row part) :
    Agreeing id part { st with room := room, frames := st.frames ++ [frame] } where
  last other hother last hlast := by
    cases hfind.symm.trans hother
    rw [List.filter_append, List.filter_cons_of_pos htells, List.filter_nil,
      List.getLast?_append, List.getLast?_singleton, Option.some_or] at hlast
    cases hlast
    exact hword
  held _ _ _ _ _ := .inr (.inl ⟨frame, List.mem_append_right _ (List.mem_singleton_self _), htells⟩)

/-- One is sent that doesn't, of something that leaves the part as it is. -/
theorem tellsElse (h : Agreeing id part st) {room : List Kept} {frame : Frame}
    (htells : frame.tells id part = false)
    (hsame : ∀ kept, (room.find? fun kept => kept.id = id) = some kept →
      ∃ old, st.find id = some old ∧ ∀ message : Messages.Message,
        message.Agrees old.row part → message.Agrees kept.row part) :
    Agreeing id part { st with room := room, frames := st.frames ++ [frame] } where
  last kept hkept last hlast := by
    obtain ⟨old, hold, hagrees⟩ := hsame kept hkept
    have hnone : ¬ frame.tells id part = true := by
      rw [htells]
      exact Bool.false_ne_true
    rw [List.filter_append, List.filter_cons_of_neg hnone, List.filter_nil,
      List.append_nil] at hlast
    exact hagrees _ (h.last old hold last hlast)
  held kept hkept held hheld hid := by
    obtain ⟨old, hold, hagrees⟩ := hsame kept hkept
    refine (h.held old hold held hheld hid).imp (hagrees _) fun hwill => ?_
    exact hwill.imp_left fun ⟨other, hmem, ht⟩ => ⟨other, List.mem_append_left _ hmem, ht⟩

/-- Nothing is held or said of it. -/
theorem unheld {room : List Kept} {frame : Frame} (hnot : holds st.messages id = false)
    (hframes : ∀ other ∈ st.frames ++ [frame], other.tells id part = false) :
    Agreeing id part { st with room := room, frames := st.frames ++ [frame] } where
  last kept _ last hlast := by
    have hin := List.mem_filter.mp (List.mem_of_getLast? hlast)
    rw [hframes last hin.1] at hin
    cases hin.2
  held kept _ held hheld hid := by
    have hholds : holds st.messages id = true := holds_iff.mpr (hid ▸ List.mem_map_of_mem hheld)
    rw [hnot] at hholds
    cases hholds

theorem posts (h : Agreeing id part st) {kept : Kept} (hnew : ∀ one ∈ st.room, one.id < kept.id) :
    Agreeing id part
      { st with room := st.room ++ [kept], frames := st.frames ++ [.create kept.told] } := by
  by_cases hid : kept.id = id
  · have hfind : ((st.room ++ [kept]).find? fun kept => kept.id = id) = some kept := by
      have hnone : (st.room.find? fun kept => kept.id = id) = none := by
        refine List.find?_eq_none.mpr fun one hone he => ?_
        have hlt := hnew one hone
        rw [of_decide_eq_true he, hid] at hlt
        exact lt_irrefl _ hlt
      rw [List.find?_append, hnone, Option.none_or]
      simp [hid]
    exact tellsNew hfind (decide_eq_true hid) (agrees_told kept part)
  · refine h.tellsElse (decide_eq_false hid) fun other hother => ⟨other, ?_, fun _ h => h⟩
    rw [List.find?_append] at hother
    simpa [hid, State.find] using hother

theorem find_rewritten (room : List Kept) (other : MessageId) (row : Row) :
    ((rewritten room other row).find? fun kept => kept.id = id) =
      (room.find? fun kept => kept.id = id).map fun kept =>
        if kept.id = other then { kept with row := row } else kept := by
  rw [rewritten, List.find?_map]
  congr 2
  funext kept
  dsimp only [Function.comp]
  split
  · rfl
  · rfl

/-- A change is committed. -/
theorem change (h : Agreeing id part st) {other : MessageId} {request : Request} {now : ℕ}
    (hok : ∀ kept, st.find id = some kept → other = id → part = .pin → request = .delete →
      kept.row.pinnedAt = none ∨
        holds st.messages id = false ∧ ∀ frame ∈ st.frames, frame.tells id .pin = false) :
    Agreeing id part (change st other request now) := by
  rcases change_cases st other request now with ⟨hst, -⟩ | ⟨old, row, hold, hrow, hst⟩
  · rw [hst]
    exact h
  · rw [hst]
    have hid : old.id = other := by simpa using List.find?_some hold
    by_cases hother : other = id
    · subst hother
      have hfind : ((rewritten st.room other row).find? fun kept => kept.id = other) =
          some { old with row := row } := by
        have hold' : (st.room.find? fun kept => kept.id = other) = some old := hold
        rw [find_rewritten, hold', Option.map_some, if_pos hid]
      cases htells : (frameOf { old with row := row } request).tells other part with
      | true => exact tellsNew hfind htells (frameOf_word hrow (hid.symm ▸ htells))
      | false =>
        -- the pin of a message that is deleted is told of by nobody
        by_cases hpin : part = .pin → request = .delete → old.row.pinnedAt = none
        · refine h.tellsElse htells fun kept hkept => ⟨old, hold, fun message hm => ?_⟩
          cases hfind.symm.trans hkept
          exact rewrite_untold hrow (hid.symm ▸ htells) hpin hm
        · simp only [Classical.not_imp] at hpin
          obtain ⟨rfl, hdelete, hpinned⟩ := hpin
          obtain ⟨hnot, hnone⟩ := (hok old hold rfl rfl hdelete).resolve_left hpinned
          refine unheld hnot fun frame hframe => ?_
          rcases List.mem_append.mp hframe with hin | hone
          · exact hnone frame hin
          · rw [List.mem_singleton.mp hone]
            exact htells
    · have hne : old.id ≠ id := fun he => hother (hid.symm.trans he)
      refine h.tellsElse (frameOf_tells_other hne) fun kept hkept => ⟨kept, ?_, fun _ hm => hm⟩
      rw [find_rewritten] at hkept
      obtain ⟨one, hone, rfl⟩ := Option.map_eq_some_iff.mp hkept
      have honeid : one.id = id := by simpa using List.find?_some hone
      rw [if_neg fun he => hother (he.symm.trans honeid)]
      exact hone

/-- A frame comes. -/
theorem delivers (h : Agreeing id part st) (ho : Ordered st) {now : ℕ}
    (hs : History.step st (.delivers now) = some st') : Agreeing id part st' := by
  rw [History.step] at hs
  split at hs
  · cases hs
  · next frame frames hframes =>
    obtain ⟨hroom, hrest, hflights⟩ := apply_rest { st with frames := frames } now frame
    have hfind : (apply { st with frames := frames } now frame).find id = st.find id := by
      rw [State.find, State.find, hroom]
    have happlied : Agreeing id part (apply { st with frames := frames } now frame) := by
      refine ⟨fun kept hkept last hlast => ?_, fun kept hkept held hheld hid => ?_⟩
      · rw [hrest] at hlast
        rw [hfind] at hkept
        refine h.last kept hkept last ?_
        have hsome : (frames.filter (Frame.tells id part)).getLast? = some last := hlast
        rw [hframes, List.filter_cons]
        split
        · rw [List.getLast?_cons, hsome]
          rfl
        · exact hsome
      · rw [hfind] at hkept
        have hnodup : (ids (State.messages { st with frames := frames })).Nodup :=
          nodup_of_ascending ho.held
        have hwait (hwill : ∃ other ∈ frames, other.tells id part = true) :
            (apply { st with frames := frames } now frame).willTell id part := by
          obtain ⟨other, hin, ht⟩ := hwill
          exact .inl ⟨other, by rw [hrest]; exact hin, ht⟩
        rcases applied_word hnodup now hheld hid part with
          ⟨htells, hword⟩ | ⟨hnot, old, hold, holdid, hsame⟩
        · by_cases hmore : ∃ other ∈ frames, other.tells id part = true
          · exact .inr (hwait hmore)
          · refine .inl (hword kept.row (h.last kept hkept frame ?_))
            have hnil : frames.filter (Frame.tells id part) = [] :=
              List.filter_eq_nil_iff.mpr fun other hin ht => hmore ⟨other, hin, ht⟩
            rw [hframes, List.filter_cons_of_pos htells, hnil]
            rfl
        · rcases h.held kept hkept old hold holdid with hagrees | ⟨other, hin, ht⟩ | hhas
          · exact .inl (hsame kept.row hagrees)
          · refine .inr (hwait ⟨other, ?_, ht⟩)
            rw [hframes] at hin
            refine (List.mem_cons.mp hin).resolve_left fun he => ?_
            rw [he, hnot] at ht
            cases ht
          · refine .inr (.inr ?_)
            rw [hflights]
            exact hhas
    cases frame with
    | create message =>
      cases hs
      exact ⟨happlied.last, happlied.held⟩
    | update | delete | reaction =>
      cases hs
      exact happlied

theorem take_one {page : List Held} {message : Held} (hhead : page.head? = some message) :
    page.take 1 = [message] := by
  obtain ⟨rest, rfl⟩ := List.head?_eq_some_iff.mp hhead
  rfl

theorem mem_answered (ho : Ordered st) (hst : st.stream = some stream) {message : Held} :
    ∀ held ∈ mergeMessage stream.messages message, held ∈ st.messages ∨ held ∈ [message] := by
  intro held hin
  have hnodup := nodup_of_ascending ho.held
  rw [messages_of_some hst] at hnodup ⊢
  rcases mem_mergeMessage hnodup hin with rfl | ⟨hold, -⟩
  · exact .inr (List.mem_singleton_self _)
  · exact .inl hold

/-- What is folded in says the part as the server has it, or it is still to be told. -/
theorem folds (h : Agreeing id part st) {page : List Held} {frames : List Frame}
    (hframes : page.map Frame.update ⊆ frames)
    (hok : ∀ kept, st.find id = some kept → ∀ frame ∈ frames, frame.tells id part = true →
      frame.word.Agrees kept.row part ∨ st.willTellBut i id part)
    (hmem : ∀ held ∈ stream.messages, held ∈ st.messages ∨ held ∈ page) :
    Agreeing id part (st.put stream) := by
  refine h.puts fun held hheld hid => (hmem held hheld).imp_right fun hpage kept hkept => ?_
  have hin : Frame.update held ∈ frames := hframes (List.mem_map_of_mem hpage)
  exact (hok kept hkept _ hin (decide_eq_true hid)).imp_right willTell_of_but

/-- A deleted message, or a reaction taken back. -/
theorem appliesEnds (h : Agreeing id part st) (ho : Ordered st) {now : ℕ} {frame : Frame}
    (hshows : frame.tells id part = false →
      ∀ flight, st.flights[i]? = some flight → flight.shows id part = false)
    (hids : ids (apply st now frame).messages = ids st.messages)
    (hok : holds st.messages id = true → ∀ kept, st.find id = some kept →
      frame.tells id part = true → frame.word.Agrees kept.row part ∨ st.willTellBut i id part) :
    Agreeing id part ((apply st now frame).ends i) := by
  obtain ⟨hroom, hframes, hflights⟩ := apply_rest st now frame
  -- Neither frames nor flights were touched, so what was still to be told is.
  have hfind : ((apply st now frame).ends i).find id = st.find id := by
    rw [State.find, State.find, State.ends, hroom]
  have hends (hbut : st.willTellBut i id part) :
      ((apply st now frame).ends i).willTell id part := by
    unfold State.willTellBut State.framed at hbut
    rw [← hframes, ← hflights] at hbut
    exact hbut
  refine ⟨fun kept hkept last hlast => ?_, fun kept hkept held hheld hid => ?_⟩
  · rw [hfind] at hkept
    apply h.last kept hkept last
    rw [← hframes]
    exact hlast
  · rw [hfind] at hkept
    rcases applied_word (nodup_of_ascending ho.held) now hheld hid part with
      ⟨htells, hword⟩ | ⟨hnot, old, hold, holdid, hsame⟩
    · have hin : id ∈ ids st.messages := hids ▸ hid ▸ List.mem_map_of_mem hheld
      exact (hok (holds_iff.mpr hin) kept hkept htells).imp (hword kept.row) hends
    · refine (h.held kept hkept old hold holdid).imp (hsame kept.row) fun hwill => ?_
      exact hends (willTellBut_of (hshows hnot) hwill)

theorem lands (h : Agreeing id part st) (ho : Ordered st) {now : ℕ} {flight : Flight}
    (hi : st.flights[i]? = some flight)
    (hok : ∀ answer, flight.answer = some answer → ∀ kept, st.find id = some kept →
      ∀ frame ∈ landed st answer flight.fetch, frame.tells id part = true →
        frame.word.Agrees kept.row part ∨ st.willTellBut i id part)
    (hs : land st i now flight = some st') : Agreeing id part st' := by
  obtain ⟨fetch, answered⟩ := flight
  -- A flight that shows nothing of the part may end.
  have hone (hfetch : (Flight.mk fetch answered).shows id part = false) :
      ∀ flight, st.flights[i]? = some flight → flight.shows id part = false := by
    intro flight hf
    cases hi.symm.trans hf
    exact hfetch
  cases answered with
  | none => cases hs
  | some answer =>
    have hok := hok answer rfl
    cases fetch with
    -- An older page, folded in if the room is still open and the page still joins on.
    | page before opened tries =>
      cases hs
      have hsilent := hone rfl
      unfold fetchPage
      unfold landed at hok
      split
      · exact h.keeps (Keeps.ends st i) hsilent
      · next stream hopen =>
        have hst := (stillOpen_some hopen).1
        simp only [hopen] at hok
        split
        · exact h.keeps ((Keeps.ends _ i).put hst (List.Sublist.refl _)) hsilent
        · next hjoins =>
          rw [if_neg hjoins] at hok
          have hmem (held : Held) (hin : held ∈ mergePage stream.messages answer.page) :
              held ∈ st.messages ∨ held ∈ answer.page := by
            rw [messages_of_some hst]
            exact mem_mergePage hin
          exact (h.folds (List.Subset.refl _) hok hmem).keeps (Keeps.ends _ i) hsilent
    -- A window around a message: the same, and newer ones may be asked for after it.
    | window around replace opened again =>
      cases hs
      have hsilent := hone rfl
      unfold fetchWindow
      unfold landed at hok
      split
      · exact h.keeps (Keeps.ends st i) hsilent
      · next stream hopen =>
        have hst := (stillOpen_some hopen).1
        simp only [hopen] at hok
        split
        · exact h.keeps ((Keeps.ends _ i).put hst (List.Sublist.refl _)) hsilent
        · next hjoins =>
          rw [if_neg hjoins] at hok
          have hmem (held : Held) (hin : held ∈ windowed stream replace answer.page) :
              held ∈ st.messages ∨ held ∈ answer.page := by
            rw [messages_of_some hst]
            exact mem_windowed hin
          dsimp only
          split
          · exact (h.folds (List.Subset.refl _) hok hmem).keeps (Keeps.loadNewer _ i false) hsilent
          · exact (h.folds (List.Subset.refl _) hok hmem).keeps (Keeps.ends _ i) hsilent
    -- A sent message's answer, folded in where the end of the room is held.
    | sent other =>
      have hsilent := hone rfl
      obtain ⟨message, hhead, rfl⟩ := Option.map_eq_some_iff.mp hs
      unfold sendMessage
      split
      · exact h.keeps (Keeps.ends st i) hsilent
      · next stream hst =>
        split
        · exact h.keeps (Keeps.leaveWindow st i) hsilent
        · next hend =>
          rw [Bool.not_eq_true', Bool.not_eq_false] at hend
          have hany : st.stream.any Stream.atEnd = true := by
            rw [hst]
            exact hend
          unfold landed at hok
          rw [if_pos hany, take_one hhead] at hok
          exact (h.folds (List.Subset.refl _) hok (mem_answered ho hst)).keeps
            (Keeps.ends _ i) hsilent
    -- A change's answer is folded in like the frame that tells it.
    | changed other =>
      have hsilent := hone rfl
      obtain ⟨message, hhead, rfl⟩ := Option.map_eq_some_iff.mp hs
      unfold putChanged State.withStream
      cases hst : st.stream with
      | none => exact (h.keeps (Keeps.gone st i) hsilent).keeps (Keeps.ends _ i) hsilent
      | some stream =>
        have hsome : st.stream.isSome = true := by
          rw [hst]
          rfl
        unfold landed at hok
        rw [if_pos hsome, take_one hhead] at hok
        exact (h.folds (List.Subset.refl _) hok (mem_answered ho hst)).keeps
          (Keeps.ends _ i) hsilent
    -- A delete's answer does what its frame does.
    | deleted other =>
      cases hs
      have hids : ids (apply st now (.delete other)).messages = ids st.messages := by
        rw [apply, messages_rewrite, ids_rewritten]
      refine h.appliesEnds ho (fun _ => hone rfl) hids fun hholds kept hkept htells => ?_
      have hother : other = id := by
        rw [Frame.tells, Bool.and_eq_true, decide_eq_true_eq] at htells
        exact htells.1
      subst hother
      have hlanded : landed st answer (.deleted other) = [.delete other] := if_pos hholds
      exact hok kept hkept _ (hlanded ▸ List.mem_singleton_self _) htells
    | reacts other request before => cases hs
    -- A refused reaction: the group is put back as a frame of what was before would.
    | refused other before =>
      cases hs
      have hids : ids (apply st now (.reaction other before)).messages = ids st.messages := by
        rw [apply, messages_rewrite, ids_rewritten]
      refine h.appliesEnds ho hone hids fun hholds kept hkept htells => ?_
      have hother : other = id := by
        rw [Frame.tells, Bool.and_eq_true, decide_eq_true_eq] at htells
        exact htells.1
      subst hother
      have hlanded : landed st answer (.refused other before) = [.reaction other before] :=
        if_pos hholds
      exact hok kept hkept _ (hlanded ▸ List.mem_singleton_self _) htells

/-- A reaction shows at once: until it is answered it needn't be so. -/
theorem reactTo (h : Agreeing id part st) (hfree : st.free i = true) (other : MessageId)
    (userId : UserId) (on : Bool) (before : ReactionGroup) :
    Agreeing id part (reactTo st i other userId before.key on before) := by
  have hsilent := @free_shows st id part i hfree
  refine ⟨h.last, fun kept hkept held hheld hid => ?_⟩
  have hshown : held ∈ (st.withStream fun stream => stream.rewrite other fun message =>
      regroup (toggled message.reactions before.key userId on) message).messages := hheld
  rw [messages_rewrite] at hshown
  obtain ⟨old, hold, rfl⟩ := List.mem_map.mp hshown
  have hwaits (hwill : st.willTell id part) :
      (History.reactTo st i other userId before.key on before).willTell id part :=
    (willTellBut_of hsilent hwill).imp_right fun hothers => has_insert.mpr (.inr hothers)
  by_cases hother : old.id = other
  · rw [if_pos hother] at hid ⊢
    by_cases hpart : part = .reactions before.key
    · -- the flight that was just begun shows it
      refine .inr (.inr (has_insert.mpr (.inl ?_)))
      simp [Flight.shows, hpart, hother.symm.trans hid]
    · exact (h.held kept hkept old hold hid).imp (agrees_regroup_of hpart) hwaits
  · rw [if_neg hother] at hid ⊢
    exact (h.held kept hkept old hold hid).imp_right hwaits

/-- A reaction is answered, by what is told or by nothing. -/
theorem serves (h : Agreeing id part st) (ho : Ordered st) {other : MessageId} {request : Request}
    {before : ReactionGroup} {answer : Option Reading} {now : ℕ} {lost : Bool}
    (hi : st.flights[i]? = some ⟨.reacts other request before, answer⟩)
    (hok : ∀ kept, st.find id = some kept → lost = false → other = id →
      part = .reactions before.key → request.rewrite now kept.row = none →
        (∀ held ∈ st.messages, held.id = id → held.message.Agrees kept.row part) ∨
          st.willTellBut i id part) :
    Agreeing id part
      (if lost then (History.change st other request now).asks i (.refused other before)
        else (History.change st other request now).ends i) := by
  obtain ⟨userId, on, hrequest⟩ := ho.reacts i _ hi other request before rfl
  -- A reaction is no delete.
  have hchanged : Agreeing id part (History.change st other request now) := by
    refine h.change fun kept _ _ _ hdelete => ?_
    rw [hrequest] at hdelete
    unfold reactRequest at hdelete
    split at hdelete
    · cases hdelete
    · cases hdelete
  have hflights : (History.change st other request now).flights = st.flights :=
    (change_rest st other request now).1
  have hshows (flight : Flight)
      (hf : (History.change st other request now).flights[i]? = some flight) :
      flight.shows id part = (decide (other = id) && decide (part = .reactions before.key)) := by
    rw [hflights] at hf
    cases hi.symm.trans hf
    rfl
  -- The reaction answered is another part, or this one.
  cases hshown : (decide (other = id) && decide (part = .reactions before.key)) with
  | false =>
    rw [hshown] at hshows
    cases lost with
    | true => exact hchanged.asks hshows
    | false => exact hchanged.keeps (Keeps.ends _ i) hshows
  -- Of this part its refusal is still to land, or a frame tells what was changed.
  | true =>
    rw [Bool.and_eq_true, decide_eq_true_eq, decide_eq_true_eq] at hshown
    cases lost with
    | true =>
      refine ⟨hchanged.last, fun kept hkept held hheld hid => .inr (.inr ?_)⟩
      refine has_insert.mpr (.inl ?_)
      simp [Flight.shows, hshown.1, hshown.2]
    | false =>
      refine ⟨hchanged.last, fun kept hkept held hheld hid => ?_⟩
      -- Nothing was changed, the condition's case, or a frame of it is on its way.
      rcases change_cases st other request now with ⟨hst, hnone⟩ | ⟨old, row, hold, -, hst⟩
      · rw [hst] at hkept hheld ⊢
        have hrow : request.rewrite now kept.row = none := hnone kept (hshown.1 ▸ hkept)
        exact (hok kept hkept rfl hshown.1 hshown.2 hrow).imp_left fun hall => hall held hheld hid
      · refine .inr (.inl ⟨frameOf { old with row := row } request, ?_, ?_⟩)
        · rw [hst]
          exact List.mem_append_right _ (List.mem_singleton_self _)
        · have holdid : old.id = other := by simpa using List.find?_some hold
          rw [hrequest]
          unfold reactRequest
          split
          · simp [frameOf, Frame.tells, Messages.reactionGroup, holdid, hshown.1, hshown.2]
          · simp [frameOf, Frame.tells, Messages.reactionGroup, holdid, hshown.1, hshown.2]

theorem fails (h : Agreeing id part st) {flight : Flight} (hi : st.flights[i]? = some flight) :
    Agreeing id part (fail st i flight.fetch) := by
  obtain ⟨fetch, answered⟩ := flight
  have hone (hfetch : (Flight.mk fetch answered).shows id part = false) :
      ∀ flight, st.flights[i]? = some flight → flight.shows id part = false := by
    intro flight hf
    cases hi.symm.trans hf
    exact hfetch
  cases fetch with
  | page | window | sent | changed | deleted =>
    refine h.keeps (Keeps.fails st i (fun _ _ _ he => ?_) fun _ _ he => ?_) (hone rfl)
    · cases he
    · cases he
  | reacts other request before =>
    refine ⟨h.last, fun kept hkept held hheld hid => ?_⟩
    refine (h.held kept hkept held hheld hid).imp_right fun hwill => hwill.imp_right fun hhas => ?_
    exact has_insert.mpr ((has_split hi hhas).imp_left fun hshows => hshows)
  | refused other before => exact h

theorem awaits (h : Agreeing id part st) {answer : Option ℕ} (hfree : answer.all st.free = true)
    (fetch : Option Fetch) : Agreeing id part (st.awaits answer fetch) := by
  unfold State.awaits
  split
  · next i f => exact h.asks (free_shows hfree)
  · exact h

theorem step (h : Agreeing id part st) (ho : Ordered st) {act : Act} (hok : TrueTo id part st act)
    (hs : History.step st act = some st') : Agreeing id part st' := by
  cases act with
  | posts kept answer =>
    refine of_guarded (fun hfresh => ?_) hs
    rw [Bool.and_eq_true, List.all_eq_true] at hfresh
    exact (h.posts fun one hone => of_decide_eq_true (hfresh.1 one hone)).awaits hfresh.2 _
  | changes other request now answer =>
    refine of_guarded (fun hfree => ?_) hs
    have hchanged : Agreeing id part (History.change st other request now) := by
      refine h.change fun kept hfound => ?_
      rw [TrueTo, hfound] at hok
      exact hok
    refine hchanged.awaits ?_ _
    cases answer with
    | none => rfl
    | some i =>
      have hflights := (change_rest st other request now).1
      rw [Option.all_some, State.free, hflights]
      exact hfree
  | delivers now => exact h.delivers ho hs
  | blocks blocked =>
    cases hs
    exact ⟨h.last, h.held⟩
  | opens i => exact of_guarded (fun hfree => h.keeps (Keeps.openRoom st i) (free_shows hfree)) hs
  | opensAround i around =>
    exact of_guarded (fun hfree => h.keeps (Keeps.openAround st i around) (free_shows hfree)) hs
  | loadsOlder i =>
    exact of_guarded (fun hfree => h.keeps (Keeps.loadOlder st i) (free_shows hfree)) hs
  | loadsNewer i =>
    exact of_guarded (fun hfree => h.keeps (Keeps.loadNewer st i true) (free_shows hfree)) hs
  | leaves i =>
    exact of_guarded (fun hfree => h.keeps (Keeps.leaveWindow st i) (free_shows hfree)) hs
  | trims first last =>
    cases hs
    exact h.shrinks (Keeps.trims st first last 0) (trimHistory_flights st first last)
  | releases waiting =>
    cases hs
    exact h.shrinks (Keeps.releases st waiting 0) (releaseOtherRooms_flights st waiting)
  | reacts i other userId key on before =>
    refine of_guarded (fun hboth => ?_) hs
    rw [Bool.and_eq_true, decide_eq_true_eq] at hboth
    obtain ⟨hfree, rfl⟩ := hboth
    exact h.reactTo hfree other userId on before
  | reads i =>
    rw [History.step] at hs
    split at hs
    · next fetch hi =>
      obtain ⟨page, -, rfl⟩ := Option.map_eq_some_iff.mp hs
      refine ⟨h.last, fun kept hfound held hheld hid => ?_⟩
      refine (h.held kept hfound held hheld hid).imp_right fun hwill => ?_
      refine hwill.imp_right fun hhas => ?_
      exact has_insert.mpr ((has_split hi hhas).imp_left fun hshows => hshows)
    · cases hs
  | serves i now lost =>
    rw [History.step] at hs
    split at hs
    · next other request before answer hi =>
      cases hs
      refine h.serves ho hi fun kept hfound => ?_
      rw [TrueTo, hi, hfound] at hok
      exact hok
    · cases hs
  | lands i now =>
    obtain ⟨flight, hi, hs⟩ := Option.bind_eq_some_iff.mp hs
    refine h.lands ho hi (fun answer ha kept hfound => ?_) hs
    rw [TrueTo, hi, hfound] at hok
    obtain ⟨fetch, answered⟩ := flight
    cases ha
    exact hok
  | fails i =>
    obtain ⟨flight, hi, rfl⟩ := Option.map_eq_some_iff.mp hs
    exact h.fails hi

end Agreeing

instance (st : State) (id : MessageId) (part : Part) : Decidable (st.framed id part) :=
  inferInstanceAs (Decidable (∃ frame ∈ st.frames, frame.tells id part = true))

instance (st : State) (i : ℕ) (id : MessageId) (part : Part) :
    Decidable (st.willTellBut i id part) :=
  inferInstanceAs (Decidable (st.framed id part ∨ Others st.flights i (Flight.shows id part)))

instance (id : MessageId) (part : Part) (st : State) (act : Act) :
    Decidable (TrueTo id part st act) := by
  refine Act.casesOn act ?_ ?_ ?_ ?_ ?_ ?_ ?_ ?_ ?_ ?_ ?_ ?_ ?_ ?_ ?_ ?_ <;>
    intros <;> unfold TrueTo <;> dsimp only <;>
    (try refine putIn st.flights fun flights => ?_) <;> (try split) <;>
    (try refine @forall_prop_decidable _ _ _ fun _ => ?_) <;> infer_instance

/-- In every run that is true to a part of a message, once every frame has come and nothing
is on its way, a client that holds the message has that part of it as the server does. -/
theorem held_agrees_with_server {id : MessageId} {part : Part} {acts : List Act} {st : State}
    {stream : Stream} {held : Held} (hm : machine.Meets (TrueTo id part) acts)
    (hr : machine.run acts = some st) (hframes : st.frames = []) (hflights : vals st.flights = [])
    (hst : st.stream = some stream) (hheld : held ∈ stream.messages) (hid : held.id = id) :
    ∃ kept, st.find id = some kept ∧ held.message.Agrees kept.row part := by
  have hstep (s : State) (act : Act) (t : State) (h : Ordered s ∧ Agreeing id part s)
      (hok : TrueTo id part s act) (hs : step s act = some t) :
      Ordered t ∧ Agreeing id part t := ⟨h.1.step hs, h.2.step h.1 hok hs⟩
  obtain ⟨ho, h⟩ := machine.invariant_of_meets ⟨Ordered.start, Agreeing.start⟩ hstep hm hr
  rw [← messages_of_some hst] at hheld
  have hin : id ∈ st.ids := ho.real (hid ▸ List.mem_map_of_mem hheld)
  obtain ⟨one, hone, hoid⟩ := List.mem_map.mp hin
  have hsome : (st.find id).isSome = true :=
    List.find?_isSome.mpr ⟨one, hone, decide_eq_true hoid⟩
  obtain ⟨kept, hkept⟩ := Option.isSome_iff_exists.mp hsome
  refine ⟨kept, hkept, (h.held kept hkept held hheld hid).resolve_right ?_⟩
  rintro (⟨frame, hmem, -⟩ | ⟨flight, hmem, -⟩)
  · rw [hframes] at hmem
    cases hmem
  · rw [hflights] at hmem
    cases hmem

/-- Somebody's words. -/
def words : Kept := ⟨0, 7, false, ⟨"hi".toList, none, none, none, [], [], none⟩⟩

/-- What was said is edited by this client, whose answer comes before the frame, and then it
is deleted. -/
def editsDeletes : List Act :=
  [.posts words none, .delivers 0, .opens 0, .reads 0, .lands 0 0,
    .changes 0 (.edit "ho".toList) 5 (some 1), .reads 1, .lands 1 5, .delivers 5,
    .changes 0 .delete 6 none, .delivers 6]

theorem held_agrees_with_server_editsDeletes : ∃ st stream held,
    machine.run editsDeletes = some st ∧ st.stream = some stream ∧ stream.messages = [held] ∧
      held.message.deletedAt = some 6 ∧
      ∃ kept, st.find 0 = some kept ∧ held.message.Agrees kept.row .body :=
  ⟨_, _, _, rfl, rfl, rfl, rfl, @held_agrees_with_server 0 .body editsDeletes _ _ _
    (by decide +kernel) rfl rfl rfl rfl List.mem_cons_self rfl⟩

/-- A page that was read before a message was deleted brings its words back for good, a pinned
message that is deleted stays pinned, and the answer to an edit undoes a later one. -/
theorem old_words_shown :
    (∃ st stream held kept, machine.run [.posts words none, .delivers 0, .opens 0, .reads 0,
        .changes 0 .delete 5 none, .delivers 5, .lands 0 5] = some st ∧
      st.frames = [] ∧ vals st.flights = [] ∧ st.stream = some stream ∧ stream.messages = [held] ∧
      st.find 0 = some kept ∧ kept.row.body = [] ∧ kept.row.deletedAt = some 5 ∧
      held.message.body = "hi".toList ∧ held.message.deletedAt = none) ∧
    (∃ st stream held kept, machine.run [.posts words none, .delivers 0, .opens 0, .reads 0,
        .lands 0 0, .changes 0 (.setPin true) 5 none, .delivers 5, .changes 0 .delete 6 none,
        .delivers 6] = some st ∧
      st.frames = [] ∧ vals st.flights = [] ∧ st.stream = some stream ∧ stream.messages = [held] ∧
      st.find 0 = some kept ∧ kept.row.pinnedAt = none ∧ held.message.pinnedAt = some 5) ∧
    ∃ st stream held kept, machine.run [.posts words none, .delivers 0, .opens 0, .reads 0,
        .lands 0 0, .changes 0 (.edit "ho".toList) 5 (some 1), .reads 1,
        .changes 0 (.edit "hey".toList) 6 none, .delivers 6, .delivers 6, .lands 1 6] = some st ∧
      st.frames = [] ∧ vals st.flights = [] ∧ st.stream = some stream ∧ stream.messages = [held] ∧
      st.find 0 = some kept ∧ kept.row.body = "hey".toList ∧ held.message.body = "ho".toList :=
  ⟨⟨_, _, _, _, rfl, rfl, rfl, rfl, rfl, rfl, rfl, rfl, rfl, rfl⟩,
    ⟨_, _, _, _, rfl, rfl, rfl, rfl, rfl, rfl, rfl, rfl⟩, _, _, _, _, rfl, rfl, rfl, rfl, rfl, rfl,
    rfl, rfl⟩

end Linger.History
