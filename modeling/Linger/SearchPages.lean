import Linger.SearchTerms
import Linger.SearchMarks
import Linger.StepMachine
import Linger.Wire

/-! Reading a search page by page while people post, edit and delete, and come into conversations
and leave them: each page starts below the message the last one ended on. -/
namespace Linger.Search
open Names (Text)
open StepMachine

/-- `PAGE`: how many hits the app asks for at a time. -/
def pageSize : ℕ := 25

/-- What the index has of a message: its words, and its files' names joined. -/
structure Content where
  body : Text
  filenames : Text
  deriving DecidableEq

structure Row where
  id : MessageId
  roomId : RoomId
  authorId : UserId
  createdAt : ℕ
  content : Content
  deletedAt : Option ℕ
  voiceJoin : Bool
  dmLeft : Bool
  screenShare : Bool
  pollClosed : Option MessageId
  deriving DecidableEq

/-- The full-text index: which contents a query matches, and what it makes of those. -/
structure Index where
  matched : Text → Content → Bool
  snippet : Text → Content → Text
  highlight : Text → Content → Text

structure SearchHit where
  messageId : MessageId
  roomId : RoomId
  authorId : UserId
  createdAt : ℕ
  cursor : MessageId
  snippet : List SearchSnippetPart
  matchedFilenames : List Text

structure Query where
  terms : Terms
  viewer : UserId
  roomId : Option RoomId
  authorId : Option UserId
  before : Option MessageId
  limit : ℕ

/-- The messages, in the order their rows were written, and who is in which DM. -/
structure Server where
  rows : List Row
  members : List (RoomId × UserId)

variable (index : Index) (isRoom : RoomId → Bool)

/-- `visible_rooms`: a room is everybody's, a DM its members'. -/
def Server.visible (st : Server) (viewer : UserId) (roomId : RoomId) : Bool :=
  isRoom roomId || st.members.contains (roomId, viewer)

/-- Where a page's `WHERE` holds, its cursor apart. -/
def Server.hit (st : Server) (query : Query) (row : Row) : Bool :=
  index.matched query.terms.toMatch row.content && row.deletedAt.isNone && !row.voiceJoin &&
    !row.dmLeft &&
    !row.screenShare && row.pollClosed.isNone && st.visible isRoom query.viewer row.roomId &&
    query.roomId.all (· == row.roomId) && query.authorId.all (· == row.authorId)

/-- The rows below the cursor. One that names no message the viewer can see has none below it. -/
def Server.below (st : Server) (query : Query) : List Row :=
  match query.before with
  | none => st.rows
  | some id =>
    match st.rows.findIdx? fun row => row.id == id && st.visible isRoom query.viewer row.roomId with
    | none => []
    | some i => st.rows.take i

def hitOf (query : Query) (row : Row) : SearchHit where
  messageId := row.id
  roomId := row.roomId
  authorId := row.authorId
  createdAt := row.createdAt
  cursor := row.id
  snippet := splitMarks (index.snippet query.terms.toMatch row.content)
  matchedFilenames := matchedFilenames (index.highlight query.terms.toMatch row.content)

/-- One page of hits, newest first. -/
def page (st : Server) (query : Query) : List SearchHit :=
  (((st.below isRoom query).reverse.filter (st.hit index isRoom query)).take query.limit).map
    (hitOf index query)

/-- What somebody searches for. -/
structure Ask where
  terms : Terms
  viewer : UserId
  roomId : Option RoomId
  authorId : Option UserId

def Ask.query (ask : Ask) (before : Option MessageId) : Query :=
  ⟨ask.terms, ask.viewer, ask.roomId, ask.authorId, before, pageSize⟩

/-- The server, and the pages read so far. -/
structure State where
  server : Server
  asked : Bool
  items : List SearchHit
  more : Bool

inductive Act
  | posts (row : Row)
  | edits (id : MessageId) (content : Content)
  | deletes (id : MessageId) (now : ℕ)
  | joins (roomId : RoomId) (userId : UserId)
  | leaves (roomId : RoomId) (userId : UserId)
  | asks
  deriving DecidableEq

def Server.edit (st : Server) (id : MessageId) (f : Row → Row) : Server :=
  { st with rows := st.rows.map fun row => if row.id = id then f row else row }

def step (ask : Ask) (st : State) : Act → Option State
  | .posts row =>
    if st.server.rows.any (·.id == row.id) then none
    else some { st with server := { st.server with rows := st.server.rows ++ [row] } }
  | .edits id content =>
    some { st with server := st.server.edit id fun row => { row with content := content } }
  | .deletes id now =>
    some { st with server := st.server.edit id fun row => { row with deletedAt := some now } }
  | .joins roomId userId =>
    some { st with server := { st.server with members := (roomId, userId) :: st.server.members } }
  | .leaves roomId userId =>
    some { st with
      server := { st.server with members := st.server.members.filter (· != (roomId, userId)) } }
  | .asks =>
    if st.asked && !st.more then none
    else
      let got := page index isRoom st.server (ask.query (st.items.getLast?.map (·.cursor)))
      some { st with asked := true, items := st.items ++ got, more := pageSize ≤ got.length }

def machine (ask : Ask) : Machine State Act := ⟨⟨⟨[], []⟩, false, [], false⟩, step index isRoom ask⟩

section Order
variable {index : Index} {isRoom : RoomId →
  Bool} {ask : Ask} {st st' : State} {act : Act} {query : Query} {m : MessageId}

def Server.ids (st : Server) : List MessageId := st.rows.map (·.id)

/-- When a message's row was written, counted in rows. -/
def Server.place (st : Server) (id : MessageId) : ℕ := st.ids.idxOf id

theorem ids_edit (st : Server) (id : MessageId) (f : Row → Row) (hf : ∀ row, (f row).id = row.id) :
    (st.edit id f).ids = st.ids := by
  rw [Server.ids, Server.edit, List.map_map]
  refine List.map_congr_left fun row _ => ?_
  dsimp only [Function.comp_apply]
  split
  · exact hf row
  · rfl

theorem place_getElem {st : Server} (h : st.ids.Nodup) (j : ℕ) (hj : j < st.rows.length) :
    st.place st.rows[j].id = j := by
  have hlt : j < st.ids.length := by
    rw [Server.ids, List.length_map]
    exact hj
  have hget : st.ids[j] = st.rows[j].id := List.getElem_map _
  rw [Server.place, ← hget, h.idxOf_getElem j hlt]

theorem place_rows {st : Server} (h : st.ids.Nodup) :
    st.rows.Pairwise fun a b => st.place a.id < st.place b.id := by
  rw [List.pairwise_iff_getElem]
  intro i j hi hj hij
  rw [place_getElem h i hi, place_getElem h j hj]
  exact hij

/-- A row is among the first `i` just when its place is below `i`. -/
theorem mem_take_iff {st : Server} (h : st.ids.Nodup) {row : Row} (hrow : row ∈ st.rows) (i : ℕ) :
    row ∈ st.rows.take i ↔ st.place row.id < i := by
  obtain ⟨j, hj, rfl⟩ := List.mem_iff_getElem.mp hrow
  rw [place_getElem h j hj]
  constructor
  · intro hmem
    obtain ⟨k, hk, heq⟩ := List.mem_iff_getElem.mp hmem
    rw [List.length_take] at hk
    rw [List.getElem_take] at heq
    have hplace := place_getElem h k (by omega)
    rw [heq, place_getElem h j hj] at hplace
    omega
  · intro hlt
    rw [List.mem_iff_getElem]
    exact ⟨j, by rw [List.length_take]; omega, List.getElem_take⟩

/-- What lies below a cursor: only what was written before the message it names, and, where the
viewer can see that message, all of it. -/
theorem below_cursor {st : Server} (h : st.ids.Nodup) {id : MessageId}
    (hbefore : query.before = some id) :
    (∀ row ∈ st.below isRoom query, row ∈ st.rows ∧ st.place row.id < st.place id) ∧
      ((∃ row ∈ st.rows, row.id = id ∧ st.visible isRoom query.viewer row.roomId = true) →
        ∀ row ∈ st.rows, st.place row.id < st.place id → row ∈ st.below isRoom query) := by
  unfold Server.below
  rw [hbefore]
  dsimp only
  split
  · next hnone =>
    refine ⟨by simp, ?_⟩
    rintro ⟨row, hmem, hid, hsees⟩
    have hnot := List.findIdx?_eq_none_iff.mp hnone row hmem
    rw [hid, hsees, beq_self_eq_true] at hnot
    cases hnot
  · next i hsome =>
    obtain ⟨hlt, hfound, -⟩ := List.findIdx?_eq_some_iff_getElem.mp hsome
    rw [Bool.and_eq_true, beq_iff_eq] at hfound
    have hplace : st.place id = i := by rw [← hfound.1, place_getElem h i hlt]
    rw [hplace]
    exact ⟨fun row hmem =>
      ⟨List.mem_of_mem_take hmem, (mem_take_iff h (List.mem_of_mem_take hmem) i).mp hmem⟩,
      fun _ row hrow hlt' => (mem_take_iff h hrow i).mpr hlt'⟩

theorem below_sublist (isRoom : RoomId → Bool) (st : Server) (query : Query) :
    (st.below isRoom query).Sublist st.rows := by
  unfold Server.below
  split
  · exact List.Sublist.refl _
  · split
    · exact List.nil_sublist _
    · exact List.take_sublist _ _

/-- The rows a page is made of, before it is cut off. -/
def Server.found (st : Server) (index : Index) (isRoom : RoomId → Bool) (query : Query) :
    List Row :=
  (st.below isRoom query).reverse.filter (st.hit index isRoom query)

theorem mem_found {st : Server} {row : Row} : row ∈ st.found index isRoom query ↔
    row ∈ st.below isRoom query ∧ st.hit index isRoom query row = true := by
  rw [Server.found, List.mem_filter, List.mem_reverse]

theorem found_pairwise (index : Index) (isRoom : RoomId → Bool) (query : Query) {st : Server}
    (h : st.ids.Nodup) :
    (st.found index isRoom query).Pairwise fun a b => st.place b.id < st.place a.id := by
  have hbelow := (place_rows h).sublist (below_sublist isRoom st query)
  exact (List.pairwise_reverse.mpr hbelow).sublist List.filter_sublist

theorem page_eq (st : Server) (query : Query) :
    page index isRoom st query =
      ((st.found index isRoom query).take query.limit).map (hitOf index query) := rfl

/-- A page that is not full leaves nothing out; a full one leaves out what was written before
all of it. -/
theorem page_takes {st : Server} (h : st.ids.Nodup) {row : Row}
    (hrow : row ∈ st.found index isRoom query) :
    (∃ hit ∈ page index isRoom st query, hit.messageId = row.id) ∨
      query.limit ≤ (page index isRoom st query).length ∧
        ∀ hit ∈ page index isRoom st query, st.place row.id < st.place hit.messageId := by
  have hsplit := List.take_append_drop query.limit (st.found index isRoom query)
  have hpair := found_pairwise index isRoom query h
  rw [← hsplit] at hrow hpair
  rw [page_eq]
  rcases List.mem_append.mp hrow with htaken | hleft
  · exact .inl ⟨hitOf index query row, List.mem_map_of_mem htaken, rfl⟩
  · right
    constructor
    · rw [List.length_map, List.length_take]
      have hlength := List.length_pos_of_mem hleft
      rw [List.length_drop] at hlength
      omega
    · intro hit hhit
      obtain ⟨other, hother, rfl⟩ := List.mem_map.mp hhit
      exact (List.pairwise_append.mp hpair).2.2 other hother row hleft

/-- What holds while somebody reads: every message has its own id, and what was read is of
messages there are, each written before the ones above it. -/
structure Reading.Sound (st : State) : Prop where
  ids : st.server.ids.Nodup
  known : ∀ hit ∈ st.items, hit.cursor = hit.messageId ∧
    ∃ row ∈ st.server.rows, row.id = hit.messageId ∧ row.roomId = hit.roomId
  order : st.items.Pairwise fun a b => st.server.place b.messageId < st.server.place a.messageId

open Reading (Sound)

theorem place_append {st : Server} {row : Row} {id : MessageId} (hid : id ∈ st.ids) :
    Server.place { st with rows := st.rows ++ [row] } id = st.place id := by
  rw [Server.place, Server.place, Server.ids, List.map_append]
  exact List.idxOf_append_of_mem hid

theorem Reading.Sound.mem_ids (h : Sound st) {hit : SearchHit} (hhit : hit ∈ st.items) :
    hit.messageId ∈ st.server.ids := by
  obtain ⟨-, row, hrow, hid, -⟩ := h.known hit hhit
  rw [← hid]
  exact List.mem_map_of_mem hrow

/-- A change that leaves every message where it is. -/
theorem Reading.Sound.edit (h : Sound st) (id : MessageId) (f : Row → Row)
    (hf : ∀ row, (f row).id = row.id ∧ (f row).roomId = row.roomId) :
    Sound { st with server := st.server.edit id f } := by
  have hids := ids_edit st.server id f fun row => (hf row).1
  refine ⟨hids ▸ h.ids, fun hit hhit => ?_, ?_⟩
  · obtain ⟨hcursor, row, hrow, hid, hroom⟩ := h.known hit hhit
    refine ⟨hcursor, if row.id = id then f row else row, List.mem_map_of_mem hrow, ?_⟩
    split
    · exact ⟨(hf row).1.trans hid, (hf row).2.trans hroom⟩
    · exact ⟨hid, hroom⟩
  · unfold Server.place
    rw [hids]
    exact h.order

theorem page_known {st : Server} {hit : SearchHit} (hhit : hit ∈ page index isRoom st query) :
    ∃ row ∈ st.found index isRoom query, hit = hitOf index query row := by
  rw [page_eq] at hhit
  obtain ⟨row, hrow, heq⟩ := List.mem_map.mp hhit
  exact ⟨row, List.mem_of_mem_take hrow, heq.symm⟩

theorem sound_step (h : Sound st) (hstep : step index isRoom ask st act = some st') :
    Sound st' := by
  cases act with
  | posts row =>
    obtain ⟨hnew, he⟩ := Option.ite_none_left_eq_some.mp hstep
    cases he
    have hfresh : row.id ∉ st.server.ids := by
      intro hmem
      obtain ⟨other, hother, hid⟩ := List.mem_map.mp hmem
      exact hnew (List.any_eq_true.mpr ⟨other, hother, beq_iff_eq.mpr hid⟩)
    refine ⟨?_, fun hit hhit => ?_, ?_⟩
    · rw [Server.ids, List.map_append]
      refine List.Nodup.append h.ids (List.nodup_singleton _) fun id hmem hmem' => hfresh ?_
      have hid : id = row.id := List.mem_singleton.mp hmem'
      rw [← hid]
      exact hmem
    · obtain ⟨hcursor, other, hother, hids⟩ := h.known hit hhit
      exact ⟨hcursor, other, List.mem_append_left _ hother, hids⟩
    · refine h.order.imp_of_mem fun {a b} ha hb hlt => ?_
      rw [place_append (h.mem_ids ha), place_append (h.mem_ids hb)]
      exact hlt
  | edits id content =>
    cases hstep
    exact h.edit id _ fun _ => ⟨rfl, rfl⟩
  | deletes id now =>
    cases hstep
    exact h.edit id _ fun _ => ⟨rfl, rfl⟩
  | joins roomId userId =>
    cases hstep
    exact ⟨h.ids, h.known, h.order⟩
  | leaves roomId userId =>
    cases hstep
    exact ⟨h.ids, h.known, h.order⟩
  | asks =>
    obtain ⟨-, he⟩ := Option.ite_none_left_eq_some.mp hstep
    cases he
    refine ⟨h.ids, fun hit hhit => ?_, ?_⟩
    · rcases List.mem_append.mp hhit with hold | hnew
      · exact h.known hit hold
      · obtain ⟨row, hrow, rfl⟩ := page_known hnew
        exact ⟨rfl, row, (below_sublist _ _ _).subset (mem_found.mp hrow).1, rfl, rfl⟩
    · refine List.pairwise_append.mpr ⟨h.order, ?_, ?_⟩
      · rw [page_eq, List.pairwise_map]
        exact (found_pairwise _ _ _ h.ids).sublist (List.take_sublist _ _)
      · intro hit hhit other hother
        obtain ⟨row, hrow, rfl⟩ := page_known hother
        -- everything on the page lies below the last hit read
        obtain ⟨items, last, hitems⟩ :=
          List.eq_nil_or_concat st.items |>.resolve_left (List.ne_nil_of_mem hhit)
        rw [List.concat_eq_append] at hitems
        have hlast :
            (ask.query (st.items.getLast?.map (·.cursor))).before = some last.messageId := by
          have hcursor := (h.known last (by rw [hitems]; simp)).1
          rw [Ask.query, hitems, List.getLast?_concat, Option.map_some, hcursor]
        have hbelow : st.server.place row.id < st.server.place last.messageId :=
          ((below_cursor h.ids hlast).1 row (mem_found.mp hrow).1).2
        have horder := h.order
        rw [hitems] at horder hhit
        rcases List.mem_append.mp hhit with hbefore | hthis
        · exact hbelow.trans
            ((List.pairwise_append.mp horder).2.2 hit hbefore last (List.mem_singleton_self _))
        · rw [List.mem_singleton.mp hthis]
          exact hbelow

/-- A message is a hit, as things stand. -/
def Stands (index : Index) (isRoom : RoomId → Bool) (ask : Ask) (st : State) (m : MessageId) :
    Prop :=
  ∃ row ∈ st.server.rows, row.id = m ∧ st.server.hit index isRoom (ask.query none) row = true

/-- The reader can still see the message their next page starts below. -/
def CursorSeen (isRoom : RoomId → Bool) (ask : Ask) (st : State) : Prop :=
  ∀ hit ∈ st.items.getLast?, st.server.visible isRoom ask.viewer hit.roomId = true

/-- A message that stands is read, or is still to come below everything read. -/
structure Coming (st : State) (m : MessageId) : Prop where
  there : m ∈ st.server.ids
  read : (∃ hit ∈ st.items, hit.messageId = m) ∨
    (st.asked = true → st.more = true) ∧
      ∀ hit ∈ st.items, st.server.place m < st.server.place hit.messageId

theorem Coming.congr (h : Coming st m) (hids : st'.server.ids = st.server.ids)
    (hasked : st'.asked = st.asked)
    (hmore : st'.more = st.more) (hitems : st'.items = st.items) : Coming st' m := by
  refine ⟨hids ▸ h.there, ?_⟩
  unfold Server.place
  rw [hids, hasked, hmore, hitems]
  exact h.read

theorem coming_step (hsound : Sound st) (h : Coming st m) (hstands : Stands index isRoom ask st m)
    (hseen : act = .asks → CursorSeen isRoom ask st)
    (hstep : step index isRoom ask st act = some st') :
    Coming st' m := by
  cases act with
  | posts row =>
    obtain ⟨-, he⟩ := Option.ite_none_left_eq_some.mp hstep
    cases he
    refine ⟨?_, h.read.imp_right fun ⟨hmore, hall⟩ => ⟨hmore, fun hit hhit => ?_⟩⟩
    · rw [Server.ids, List.map_append]
      exact List.mem_append_left _ h.there
    · rw [place_append h.there, place_append (hsound.mem_ids hhit)]
      exact hall hit hhit
  -- Nothing but a post or a page changes which messages there are, or what was read.
  | edits id content =>
    cases hstep
    exact h.congr (ids_edit _ _ _ fun _ => rfl) rfl rfl rfl
  | deletes id now =>
    cases hstep
    exact h.congr (ids_edit _ _ _ fun _ => rfl) rfl rfl rfl
  | joins roomId userId =>
    cases hstep
    exact h.congr rfl rfl rfl rfl
  | leaves roomId userId =>
    cases hstep
    exact h.congr rfl rfl rfl rfl
  | asks =>
    obtain ⟨-, he⟩ := Option.ite_none_left_eq_some.mp hstep
    cases he
    refine ⟨h.there, ?_⟩
    rcases h.read with ⟨hit, hhit, hid⟩ | ⟨-, hall⟩
    · exact .inl ⟨hit, List.mem_append_left _ hhit, hid⟩
    · obtain ⟨row, hrow, hid, hhit⟩ := hstands
      -- It stands below the cursor, so the page finds it.
      have hfound :
          row ∈ st.server.found index isRoom (ask.query (st.items.getLast?.map (·.cursor))) := by
        refine mem_found.mpr ⟨?_, hhit⟩
        cases hlast : st.items.getLast? with
        | none => exact hrow
        | some last =>
          have hmem : last ∈ st.items := List.mem_of_getLast? hlast
          obtain ⟨hcursor, other, hother, hoid, hroom⟩ := hsound.known last hmem
          have hbefore : (ask.query (some last.cursor)).before = some last.messageId :=
            congrArg some hcursor
          refine (below_cursor hsound.ids hbefore).2 ?_ row hrow ?_
          · exact ⟨other, hother, hoid, hroom ▸ hseen rfl last hlast⟩
          · rw [hid]
            exact hall last hmem
      -- The page holds it, or is full with messages that are all newer.
      rcases page_takes hsound.ids hfound with ⟨hit, hhit, hm⟩ | ⟨hfull, hbelow⟩
      · exact .inl ⟨hit, List.mem_append_right _ hhit, hm.trans hid⟩
      · right
        refine ⟨fun _ => decide_eq_true hfull, fun hit hhit => ?_⟩
        rcases List.mem_append.mp hhit with hold | hnew
        · exact hall hit hold
        · rw [← hid]
          exact hbelow hit hnew

theorem sound_start : Sound (machine index isRoom ask).start :=
  ⟨List.nodup_nil, by simp [machine], List.Pairwise.nil⟩

/-- **Pages repeat nothing and show nothing they may not**: in every run, each message is read at
most once and below everything written after it; and a page holds only messages that, as it is
asked for, stand there undeleted, match what was searched for, and are in a room or one of the
viewer's own DMs. -/
theorem pages_read_once {acts : List Act} (hrun : (machine index isRoom ask).run acts = some st) :
    (st.items.map (·.messageId)).Nodup ∧
      (st.items.Pairwise fun a b => st.server.place b.messageId < st.server.place a.messageId) ∧
      ∀ st', step index isRoom ask st .asks = some st' → st'.server = st.server ∧
        ∃ got, st'.items = st.items ++ got ∧ ∀ hit ∈ got, ∃ row ∈ st.server.rows,
          row.id = hit.messageId ∧ st.server.hit index isRoom (ask.query none) row = true := by
  have hsound : Sound st := (machine index isRoom ask).invariant sound_start
    (fun _ _ _ h hstep => sound_step h hstep) ⟨acts, hrun⟩
  refine ⟨?_, hsound.order, fun st' hstep => ?_⟩
  · rw [List.Nodup, List.pairwise_map]
    exact hsound.order.imp fun hlt heq => by rw [heq] at hlt; exact lt_irrefl _ hlt
  · obtain ⟨-, he⟩ := Option.ite_none_left_eq_some.mp hstep
    cases he
    refine ⟨rfl, _, rfl, fun hit hhit => ?_⟩
    obtain ⟨row, hrow, rfl⟩ := page_known hhit
    obtain ⟨hbelow, hhit⟩ := mem_found.mp hrow
    exact ⟨row, (below_sublist _ _ _).subset hbelow, rfl, hhit⟩

/-- **Pages miss nothing that stands**: a message that is a hit from the first page on is read
exactly once by the time the pages end, whatever is posted, edited or deleted meanwhile, as long
as the reader can still see the message each next page starts below. -/
theorem pages_miss_nothing {before acts : List Act} {s t : State}
    (hbefore : (machine index isRoom ask).run before = some s)
    (hfresh : s.asked = false ∧ s.items = [])
    (hmeets : (machine index isRoom ask).MeetsFrom
      (fun st act => Stands index isRoom ask st m ∧
        (act = .asks → CursorSeen isRoom ask st)) s acts)
    (hstands : Stands index isRoom ask s m) (hrun : (machine index isRoom ask).runFrom s acts =
      some t)
    (hdone : t.asked = true ∧ t.more = false) : (t.items.map (·.messageId)).count m = 1 := by
  have hsound : Sound s := (machine index isRoom ask).invariant sound_start
    (fun _ _ _ h hstep => sound_step h hstep) ⟨before, hbefore⟩
  have hcoming : Coming s m := by
    obtain ⟨row, hrow, hid, -⟩ := hstands
    refine ⟨by rw [← hid]; exact List.mem_map_of_mem hrow,
      .inr ⟨fun hasked => ?_, fun hit hhit => ?_⟩⟩
    · rw [hfresh.1] at hasked
      cases hasked
    · rw [hfresh.2] at hhit
      cases hhit
  have hboth : Sound t ∧ Coming t m := (machine index isRoom ask).keeps_from
    (I := fun st => Sound st ∧ Coming st m)
    (fun _ _ _ h hok hstep => ⟨sound_step h.1 hstep, coming_step h.1 h.2 hok.1 hok.2 hstep⟩)
    ⟨hsound, hcoming⟩ hmeets hrun
  have hnodup : (t.items.map (·.messageId)).Nodup := by
    rw [List.Nodup, List.pairwise_map]
    exact hboth.1.order.imp fun hlt heq => by rw [heq] at hlt; exact lt_irrefl _ hlt
  apply List.count_eq_one_of_mem hnodup
  rcases hboth.2.read with ⟨hit, hhit, hid⟩ | ⟨hmore, -⟩
  · exact List.mem_map.mpr ⟨hit, hhit, hid⟩
  · have hyes := hmore hdone.1
    rw [hdone.2] at hyes
    cases hyes

/-- An index in which everything matches. -/
def findsAll : Index :=
  ⟨fun _ _ => true, fun _ content => content.body, fun _ content => content.filenames⟩

def plainRow (id : MessageId) : Row := ⟨id, 5, 7, id, ⟨['a'], []⟩, none, false, false, false, none⟩

def somebody : Ask := ⟨⟨[['a']]⟩, 7, none, none⟩

instance : Decidable (Stands index isRoom ask st m) :=
  inferInstanceAs (Decidable (∃ row ∈ st.server.rows,
    row.id = m ∧ st.server.hit index isRoom (ask.query none) row = true))

instance : Decidable (CursorSeen isRoom ask st) :=
  inferInstanceAs
    (Decidable (∀ hit ∈ st.items.getLast?, st.server.visible isRoom ask.viewer hit.roomId = true))

/-- Two messages more than a page holds. -/
def many : List Act := (List.range 27).map fun i => .posts (plainRow (i + 1))

/-- A page is read; then the second message, which the next page would start with, is deleted, and
another is posted. -/
def reading : List Act := [.asks, .deletes 2 9, .posts (plainRow 28), .asks]

theorem pages_read_once_many :
    ∃ st, (machine findsAll (· == 5) somebody).run (many ++ reading) = some st ∧
      st.items.length = 26 ∧ (st.items.map (·.messageId)).Nodup := by
  have hruns : ((machine findsAll (· == 5) somebody).run (many ++ reading)).map (·.items.length) =
      some 26 := by
    decide +kernel
  obtain ⟨st, hrun, hlength⟩ := Option.map_eq_some_iff.mp hruns
  exact ⟨st, hrun, hlength, (pages_read_once hrun).1⟩

theorem pages_miss_nothing_many :
    ∃ s t, (machine findsAll (· == 5) somebody).run many = some s ∧
      (machine findsAll (· == 5) somebody).runFrom s reading = some t ∧
      (t.items.map (·.messageId)).count 1 = 1 := by
  have hruns : ((machine findsAll (· == 5) somebody).run many).any (fun s =>
      decide (s.asked = false ∧ s.items.length = 0) &&
        decide (Stands findsAll (· == 5) somebody s 1) &&
        decide ((machine findsAll (· == 5) somebody).MeetsFrom (fun st act =>
          Stands findsAll (· == 5) somebody st 1 ∧
            (act = .asks → CursorSeen (· == 5) somebody st)) s reading) &&
        ((machine findsAll (· == 5) somebody).runFrom s reading).any fun t =>
          t.asked && !t.more) = true := by
    decide +kernel
  obtain ⟨s, hbefore, hs⟩ := (Option.any_eq_true _ _).mp hruns
  simp only [Bool.and_eq_true, decide_eq_true_eq] at hs
  obtain ⟨⟨⟨hfresh, hstands⟩, hmeets⟩, hends⟩ := hs
  obtain ⟨t, hrun, ht⟩ := (Option.any_eq_true _ _).mp hends
  rw [Bool.and_eq_true, Bool.not_eq_true'] at ht
  exact ⟨s, t, hbefore, hrun, pages_miss_nothing hbefore
    ⟨hfresh.1, List.eq_nil_of_length_eq_zero hfresh.2⟩ hmeets hstands hrun ht⟩

end Order

end Linger.Search
