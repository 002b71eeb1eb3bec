import Linger.HistoryLists

/-! What a stream holds of its room: an ascending stretch of it without a gap, up to the end
of what the client was told when it says so, and from the room's first when it says that. -/
namespace Linger.History
open Stretch

def Stream.ids (stream : Stream) : List MessageId := History.ids stream.messages

/-- `all` is the room so far, `told` what has been delivered of it. -/
structure Fits (all told : List MessageId) (stream : Stream) : Prop where
  ascends : stream.ids.Pairwise (· < ·)
  real : stream.ids ⊆ all
  ended : stream.atEnd = true → ToEnd told stream.ids
  begun : stream.atEnd = true → stream.atStart = true → ∀ x ∈ told, ∃ b ∈ stream.ids, b ≤ x
  whole : stream.atEnd = false → NoGap all stream.ids
  awayBegun : stream.atEnd = false → stream.atStart = true → ∃ b ∈ stream.ids, ∀ x ∈ all, b ≤ x
  away : stream.atEnd = false → stream.loading = false → stream.ids ≠ []
  loadedSome : stream.loaded = true → stream.atEnd = true → stream.ids = [] → told = []

namespace Fits
variable {all told : List MessageId} {stream stream' : Stream} {message : Held} {x : MessageId}

/-- An opening of the room. -/
theorem opened (atEnd : Bool) (n : ℕ) : Fits all told ⟨[], false, atEnd, true, false, n⟩ where
  ascends := List.Pairwise.nil
  real := List.nil_subset _
  ended _ _ _ _ ha := by cases ha
  begun _ hstart := by cases hstart
  whole _ _ _ _ ha := by cases ha
  awayBegun _ hstart := by cases hstart
  away _ hloading := by cases hloading
  loadedSome hloaded := by cases hloaded

/-- Nothing of this changes with what the messages say. -/
theorem congr (h : Fits all told stream) (hids : stream'.ids = stream.ids)
    (hstart : stream'.atStart = stream.atStart) (hend : stream'.atEnd = stream.atEnd)
    (hloading : stream'.loading = false → stream.loading = false ∨ stream.ids ≠ [] ∨
      stream.atEnd = true) (hloaded : stream'.loaded = stream.loaded) :
    Fits all told stream' where
  ascends := hids ▸ h.ascends
  real := hids ▸ h.real
  ended he := hids ▸ h.ended (hend ▸ he)
  begun he hs := hids ▸ h.begun (hend ▸ he) (hstart ▸ hs)
  whole he := hids ▸ h.whole (hend ▸ he)
  awayBegun he hs := hids ▸ h.awayBegun (hend ▸ he) (hstart ▸ hs)
  away he hl := by
    rw [hend] at he
    rw [hids]
    rcases hloading hl with hl | hsome | htrue
    · exact h.away he hl
    · exact hsome
    · rw [he] at htrue
      cases htrue
  loadedSome hl he hnil := h.loadedSome (hloaded ▸ hl) (hend ▸ he) (hids ▸ hnil)

/-- A message is committed. -/
theorem commits (h : Fits all told stream) (hnew : ∀ y ∈ all, y < x) :
    Fits (all ++ [x]) told stream where
  ascends := h.ascends
  real := List.Subset.trans h.real (List.subset_append_left _ _)
  ended := h.ended
  begun := h.begun
  whole he := (h.whole he).grow h.real hnew
  awayBegun he hs := by
    obtain ⟨b, hb, hleast⟩ := h.awayBegun he hs
    refine ⟨b, hb, fun y hy => ?_⟩
    rcases List.mem_append.mp hy with hold | hone
    · exact hleast y hold
    · rw [List.mem_singleton.mp hone]
      exact le_of_lt (hnew b (h.real hb))
  away := h.away
  loadedSome := h.loadedSome

/-- A message that is not delivered is one beyond all that are. -/
theorem merges (h : Fits all told stream) (hend : stream.atEnd = true) (hx : message.id ∈ all)
    (hnew : ∀ y ∈ told, y < message.id)
    (hm : stream'.messages = mergeMessage stream.messages message)
    (hstart : stream'.atStart = stream.atStart) (hend' : stream'.atEnd = stream.atEnd) :
    Fits all told stream' ∧ Fits all (told ++ [message.id]) stream' := by
  have hmem (y : MessageId) : y ∈ stream'.ids ↔ y = message.id ∨ y ∈ stream.ids := by
    rw [Stream.ids, hm]
    exact mem_ids_mergeMessage
  have hself : message.id ∈ stream'.ids := (hmem _).mpr (.inl rfl)
  have hnot : stream'.atEnd ≠ false := by
    rw [hend', hend]
    exact Bool.noConfusion
  have hended := (h.ended hend).insert hnew hmem
  have hbegun (hs : stream'.atStart = true) (y : MessageId) (hy : y ∈ told ++ [message.id]) :
      ∃ b ∈ stream'.ids, b ≤ y := by
    rcases List.mem_append.mp hy with hold | hone
    · obtain ⟨b, hb, hle⟩ := h.begun hend (hstart ▸ hs) y hold
      exact ⟨b, (hmem b).mpr (.inr hb), hle⟩
    · exact ⟨message.id, hself, le_of_eq (List.mem_singleton.mp hone).symm⟩
  have hascends : stream'.ids.Pairwise (· < ·) := by
    rw [Stream.ids, hm]
    exact ascending_mergeMessage h.ascends
  have hreal : stream'.ids ⊆ all :=
    fun y hy => ((hmem y).mp hy).elim (fun he => he ▸ hx) (@h.real y)
  have hnone (hnil : stream'.ids = []) : False := by
    rw [hnil] at hself
    cases hself
  exact ⟨⟨hascends, hreal, fun _ => hended.mono (List.subset_append_left _ _),
      fun _ hs y hy => hbegun hs y (List.mem_append_left _ hy), fun he => absurd he hnot,
      fun he => absurd he hnot, fun he => absurd he hnot, fun _ _ hnil => (hnone hnil).elim⟩,
    ⟨hascends, hreal, fun _ => hended, fun _ => hbegun, fun he => absurd he hnot,
      fun he => absurd he hnot, fun he => absurd he hnot, fun _ _ hnil => (hnone hnil).elim⟩⟩

/-- A message that is held is replaced. -/
theorem replaces (h : Fits all told stream) (hheld : message.id ∈ stream.ids)
    (hm : stream'.messages = mergeMessage stream.messages message)
    (hstart : stream'.atStart = stream.atStart) (hend : stream'.atEnd = stream.atEnd)
    (hloading : stream'.loading = stream.loading) (hloaded : stream'.loaded = stream.loaded) :
    Fits all told stream' := by
  refine h.congr ?_ hstart hend (fun hl => .inl (hloading ▸ hl)) hloaded
  have hholds : holds stream.messages message.id = true := holds_iff.mpr hheld
  rw [Stream.ids, hm, mergeMessage, if_pos hholds]
  exact ids_putInPlace

/-- A stream that isn't at its end is told of nothing. -/
theorem drops (h : Fits all told stream) (hend : stream.atEnd = false) (x : MessageId) :
    Fits all (told ++ [x]) stream where
  ascends := h.ascends
  real := h.real
  ended he := by rw [hend] at he; cases he
  begun he := by rw [hend] at he; cases he
  whole := h.whole
  awayBegun := h.awayBegun
  away := h.away
  loadedSome _ he := by rw [hend] at he; cases he

section Pages
variable {page : List Held} {read : ℕ} {bound around : MessageId}

theorem mem_take_read (hs : all.Pairwise (· < ·)) {y : MessageId} (hx : x ∈ all)
    (hy : y ∈ all.take read) (hle : x ≤ y) : x ∈ all.take read := mem_take_of_le hs hx hy hle

/-- The first page of an opening: whatever was delivered was there when it was read, or is
held since. -/
theorem firstPage (h : Fits all told stream) (hs : all.Pairwise (· < ·))
    (hend : stream.atEnd = true) (hpage : ids page = pageIds (all.take read) none)
    (hsince : ∀ x ∈ told, x ∈ stream.ids ∨ x ∈ all.take read) :
    Fits all told { stream with
      messages := mergePage stream.messages page, atStart := page.length < pageSize
      loading := false, loaded := true } := by
  have hsr : (all.take read).Pairwise (· < ·) := hs.sublist (List.take_sublist _ _)
  have hmem (y : MessageId) : y ∈ ids (mergePage stream.messages page) ↔
      y ∈ stream.ids ∨ y ∈ pageIds (all.take read) none := by
    rw [mem_ids_mergePage, hpage]
    rfl
  have hfull (hshort : page.length < pageSize) (y : MessageId) (hy : y ∈ told) :
      y ∈ ids (mergePage stream.messages page) := by
    rw [hmem]
    refine (hsince y hy).imp id fun hread => mem_pageIds_of_short ?_ hread fun _ he => by cases he
    rw [← hpage, ids, List.length_map]
    exact hshort
  have hne : ¬ stream.atEnd = false := by rw [hend]; exact Bool.noConfusion
  refine ⟨ascending_mergePage h.ascends (hpage ▸ nodup_pageIds hsr), fun y hy => ?_,
    fun _ y hy a ha hay => ?_, fun _ hstart y hy => ?_, fun he => absurd he hne,
    fun he => absurd he hne, fun he => absurd he hne, fun _ _ hnil => ?_⟩
  · rcases (hmem y).mp hy with hold | hin
    · exact h.real hold
    · exact List.mem_of_mem_take (mem_of_mem_pageIds hin).1
  · refine (hmem y).mpr ?_
    rcases hsince y hy with hold | hread
    · exact .inl hold
    · rcases (hmem a).mp ha with hheld | hin
      · exact .inl (h.ended hend y hy a hheld hay)
      · exact .inr (mem_pageIds_of_le hsr hread (fun _ he => by cases he) hin hay)
  · exact ⟨y, hfull (of_decide_eq_true hstart) y hy, le_rfl⟩
  · have hnil : ids (mergePage stream.messages page) = [] := hnil
    have hempty : page = [] := by
      refine List.eq_nil_iff_forall_not_mem.mpr fun held hheld => ?_
      have hin : held.id ∈ ids (mergePage stream.messages page) :=
        mem_ids_mergePage.mpr (.inr (List.mem_map_of_mem hheld))
      rw [hnil] at hin
      cases hin
    refine List.eq_nil_iff_forall_not_mem.mpr fun y hy => ?_
    have hin := hfull (by rw [hempty]; decide) y hy
    rw [hnil] at hin
    cases hin

/-- The least of a room. -/
theorem exists_least (hs : all.Pairwise (· < ·)) (hx : x ∈ all) : ∃ m ∈ all, ∀ y ∈ all, m ≤ y := by
  cases all with
  | nil => cases hx
  | cons m rest =>
    refine ⟨m, List.mem_cons_self, fun y hy => ?_⟩
    rcases List.mem_cons.mp hy with rfl | hin
    · exact le_rfl
    · exact le_of_lt ((List.pairwise_cons.mp hs).1 y hin)

/-- The page before the oldest held. -/
theorem olderPage (h : Fits all told stream) (hs : all.Pairwise (· < ·)) (htold : told ⊆ all)
    (hhead : stream.messages.head?.map Held.id = some bound) (hbound : bound ∈ all.take read)
    (hpage : ids page = pageIds (all.take read) (some bound)) :
    Fits all told { stream with
      messages := mergePage stream.messages page, atStart := page.length < pageSize
      loading := false, loaded := true } := by
  have hsr : (all.take read).Pairwise (· < ·) := hs.sublist (List.take_sublist _ _)
  have hmem (y : MessageId) : y ∈ ids (mergePage stream.messages page) ↔
      y ∈ stream.ids ∨ y ∈ pageIds (all.take read) (some bound) := by
    rw [mem_ids_mergePage, hpage]
    rfl
  obtain ⟨first, hfirst, hfid⟩ := Option.map_eq_some_iff.mp hhead
  obtain ⟨rest, hlist⟩ := List.head?_eq_some_iff.mp hfirst
  have hheld : bound ∈ stream.ids := by
    rw [Stream.ids, hlist, ← hfid]
    exact List.mem_cons_self
  have hleast (y : MessageId) (hy : y ∈ stream.ids) : bound ≤ y := by
    have hasc := h.ascends
    rw [Stream.ids, hlist] at hy hasc
    rcases List.mem_cons.mp hy with rfl | hin
    · exact le_of_eq hfid.symm
    · exact hfid ▸ le_of_lt ((List.pairwise_cons.mp hasc).1 y hin)
  -- below the oldest held there is the page, and nothing else
  have hbelow (a y : MessageId) (ha : a ∈ ids (mergePage stream.messages page)) (hy : y ∈ all)
      (hay : a ≤ y) (hlt : y < bound) : y ∈ ids (mergePage stream.messages page) := by
    have hin := ((hmem a).mp ha).resolve_left fun hold =>
      absurd (lt_of_le_of_lt hay hlt) (not_lt.mpr (hleast a hold))
    exact (hmem y).mpr (.inr (mem_pageIds_of_le hsr (mem_take_read hs hy hbound (le_of_lt hlt))
      (fun _ he => by cases he; exact hlt) hin hay))
  have hshort (hlen : page.length < pageSize) (y : MessageId) (hy : y ∈ all) (hlt : y < bound) :
      y ∈ ids (mergePage stream.messages page) := by
    refine (hmem y).mpr (.inr (mem_pageIds_of_short ?_ (mem_take_read hs hy hbound (le_of_lt hlt))
      fun _ he => by cases he; exact hlt))
    rw [← hpage, ids, List.length_map]
    exact hlen
  have hboth : bound ∈ ids (mergePage stream.messages page) := (hmem bound).mpr (.inl hheld)
  refine ⟨ascending_mergePage h.ascends (hpage ▸ nodup_pageIds hsr), fun y hy => ?_,
    fun hend y hy a ha hay => ?_, fun hend hstart y hy => ?_, fun hend y hy a ha b hb hay hyb => ?_,
    fun hend hstart => ?_, fun _ _ => List.ne_nil_of_mem hboth,
    fun _ _ hnil => absurd hnil (List.ne_nil_of_mem hboth)⟩
  · rcases (hmem y).mp hy with hold | hin
    · exact h.real hold
    · exact List.mem_of_mem_take (mem_of_mem_pageIds hin).1
  · rcases lt_or_ge y bound with hlt | hge
    · exact hbelow a y ha (htold hy) hay hlt
    · exact (hmem y).mpr (.inl (h.ended hend y hy bound hheld hge))
  · rcases lt_or_ge y bound with hlt | hge
    · exact ⟨y, hshort (of_decide_eq_true hstart) y (htold hy) hlt, le_rfl⟩
    · exact ⟨bound, hboth, hge⟩
  · rcases lt_or_ge y bound with hlt | hge
    · exact hbelow a y ha hy hay hlt
    · have hb := ((hmem b).mp hb).resolve_right fun hin =>
        absurd (lt_of_le_of_lt hyb ((mem_of_mem_pageIds hin).2 bound rfl)) (not_lt.mpr hge)
      exact (hmem y).mpr (.inl (h.whole hend y hy bound hheld b hb hge hyb))
  · obtain ⟨m, hm, hall⟩ := exists_least hs (List.mem_of_mem_take hbound)
    rcases lt_or_ge m bound with hlt | hge
    · exact ⟨m, hshort (of_decide_eq_true hstart) m hm hlt, hall⟩
    · exact ⟨bound, hboth, fun y hy => hge.trans (hall y hy)⟩

theorem mem_ids_windowed {replace : Bool} {ends : List MessageId} (hpage : ids page = ends) :
    x ∈ ids (windowed stream replace page) ↔ (replace = false ∧ x ∈ stream.ids) ∨ x ∈ ends := by
  cases replace with
  | true => simp [windowed, mem_ids_sortById, hpage]
  | false =>
    rw [← hpage]
    simpa [windowed, Stream.ids] using mem_ids_mergePage

theorem ascending_windowed {replace : Bool} (h : stream.ids.Pairwise (· < ·))
    (hpage : (ids page).Nodup) : (ids (windowed stream replace page)).Pairwise (· < ·) := by
  cases replace with
  | true => exact ascending_sortById hpage
  | false => exact ascending_mergePage h hpage

/-- What a window was read from, and around what: a message held, if it reads on. -/
structure Windows (all : List MessageId) (stream : Stream) (around : MessageId) (replace : Bool)
    (page : List Held) (read : ℕ) : Prop where
  ascends : all.Pairwise (· < ·)
  page : ids page = windowIds (all.take read) around
  forward : replace = false → stream.atEnd = false ∧ around ∈ stream.ids ∧ around ∈ all.take read

namespace Windows
variable {replace : Bool} (w : Windows all stream around replace page read)
include w

theorem ascends_read : (all.take read).Pairwise (· < ·) := w.ascends.sublist (List.take_sublist _ _)

theorem mem_ids : x ∈ ids (windowed stream replace page) ↔
    (replace = false ∧ x ∈ stream.ids) ∨ x ∈ windowIds (all.take read) around :=
  mem_ids_windowed w.page

theorem noGap_page : NoGap all (windowIds (all.take read) around) := fun y hy a ha b hb hay hyb =>
  windowIds_noGap w.ascends_read y
    (mem_take_read w.ascends hy (mem_of_mem_windowIds hb) hyb) a ha b hb hay hyb

theorem noGap (h : stream.atEnd = false → NoGap all stream.ids) :
    NoGap all (ids (windowed stream replace page)) := by
  intro y hy a ha b hb hay hyb
  rcases Bool.eq_false_or_eq_true replace with htrue | hfalse
  · have hnot (c : MessageId) (hc : c ∈ ids (windowed stream replace page)) :
        c ∈ windowIds (all.take read) around :=
      (w.mem_ids.mp hc).resolve_left fun hf => by rw [htrue] at hf; cases hf.1
    exact w.mem_ids.mpr (.inr (w.noGap_page y hy a (hnot a ha) b (hnot b hb) hay hyb))
  · obtain ⟨hend, hheld, hthere⟩ := w.forward hfalse
    have hboth (c : MessageId) : c ∈ ids (windowed stream replace page) ↔
        c ∈ stream.ids ∨ c ∈ windowIds (all.take read) around := by
      rw [w.mem_ids, hfalse]
      simp
    exact (h hend).union w.noGap_page hheld (around_mem_windowIds w.ascends_read hthere) hboth
      y hy a ha b hb hay hyb

theorem newer (hends : pageEnds around page = true) (hx : x ∈ all.take read) (hlt : around < x) :
    x ∈ ids (windowed stream replace page) :=
  w.mem_ids.mpr (.inr (mem_windowIds_of_newer (w.page ▸ pageEnds_iff.mp hends) hx hlt))

theorem older (hback : reachesBack around page = true) (hx : x ∈ all.take read)
    (hle : x ≤ around) : x ∈ ids (windowed stream replace page) :=
  w.mem_ids.mpr (.inr (mem_windowIds_of_older (w.page ▸ reachesBack_iff.mp hback) hx hle))

/-- Unless it ends where the room did, as much came as was asked for after the middle. -/
theorem exists_newer (hends : pageEnds around page = false) :
    ∃ y ∈ windowIds (all.take read) around, around < y := by
  have hlong : ¬ ((ids page).filter fun id => around < id).length < windowNewer := fun hlt => by
    rw [pageEnds_iff.mpr hlt] at hends
    cases hends
  obtain ⟨y, hy⟩ := List.exists_mem_of_length_pos
    (lt_of_lt_of_le (by decide : 0 < windowNewer) (not_lt.mp hlong))
  have hin := List.mem_filter.mp hy
  exact ⟨y, w.page ▸ hin.1, of_decide_eq_true hin.2⟩

/-- A window that reaches back has the room's first in it. -/
theorem least (hback : reachesBack around page = true)
    (hsome : pageEnds around page = true → windowed stream replace page ≠ []) :
    ∃ b ∈ ids (windowed stream replace page), ∀ y ∈ all, b ≤ y := by
  have hread : ∃ y, y ∈ all.take read := by
    cases hends : pageEnds around page with
    | true =>
      obtain ⟨held, rest, hlist⟩ := List.exists_cons_of_ne_nil (hsome hends)
      have hin : held.id ∈ ids (windowed stream replace page) := hlist ▸ List.mem_cons_self
      rcases w.mem_ids.mp hin with ⟨hf, -⟩ | hpage
      · exact ⟨around, (w.forward hf).2.2⟩
      · exact ⟨held.id, mem_of_mem_windowIds hpage⟩
    | false =>
      obtain ⟨y, hy, -⟩ := w.exists_newer hends
      exact ⟨y, mem_of_mem_windowIds hy⟩
  obtain ⟨y, hy⟩ := hread
  obtain ⟨m, hm, hleast⟩ := exists_least w.ascends (List.mem_of_mem_take hy)
  have hmread := mem_take_read w.ascends hm hy (hleast y (List.mem_of_mem_take hy))
  rcases lt_or_ge around m with hlt | hle
  · cases hends : pageEnds around page with
    | true => exact ⟨m, w.newer hends hmread hlt, hleast⟩
    | false =>
      obtain ⟨b, hb, -⟩ := w.exists_newer hends
      have hmb := hleast b (List.mem_of_mem_take (mem_of_mem_windowIds hb))
      exact ⟨m, w.mem_ids.mpr (.inr (mem_windowIds_of_ge w.ascends_read hmread hlt hb hmb)), hleast⟩
  · exact ⟨m, w.older hback hmread hle, hleast⟩

/-- A window: if it is said to end where the room does, all that was delivered was there when
it was read. -/
theorem fits (h : Fits all told stream) {ends : Bool}
    (hread : pageEnds around page = true → ends = true → told ⊆ all.take read)
    (hsome : ends = false → windowed stream replace page ≠ []) (n : ℕ) :
    Fits all told
      { messages := windowed stream replace page
        atStart := (!replace && stream.atStart) || reachesBack around page
        atEnd := pageEnds around page && ends
        loading := false, loaded := true, opened := n } := by
  -- A window that ends the room was read when all that was delivered was there.
  have hboth (he : (pageEnds around page && ends) = true) :
      pageEnds around page = true ∧ told ⊆ all.take read := by
    rw [Bool.and_eq_true] at he
    exact ⟨he.1, hread he.1 he.2⟩
  have hends (he : (pageEnds around page && ends) = false) (htrue : pageEnds around page = true) :
      windowed stream replace page ≠ [] := by
    rw [htrue, Bool.true_and] at he
    exact hsome he
  have hgap := w.noGap h.whole
  -- A start that was held still is, as such a window only adds to it.
  have hbefore (hold : (!replace && stream.atStart) = true) :
      ∃ b ∈ ids (windowed stream replace page), ∀ y ∈ all, b ≤ y := by
    rw [Bool.and_eq_true, Bool.not_eq_true'] at hold
    obtain ⟨b, hb, hleast⟩ := h.awayBegun (w.forward hold.1).1 hold.2
    exact ⟨b, w.mem_ids.mpr (.inl ⟨hold.1, hb⟩), hleast⟩
  refine ⟨ascending_windowed h.ascends (w.page ▸ nodup_windowIds w.ascends_read), fun y hy => ?_,
    fun he y hy a ha hay => ?_, fun he hstart y hy => ?_, fun _ => hgap, fun he hstart => ?_,
    fun he _ => ?_, fun _ he hnil => ?_⟩
  -- `real`
  · rcases w.mem_ids.mp hy with ⟨-, hold⟩ | hin
    · exact h.real hold
    · exact List.mem_of_mem_take (mem_of_mem_windowIds hin)
  -- `ended`
  · obtain ⟨hpage, htold⟩ := hboth he
    rcases lt_or_ge around y with hlt | hle
    · exact w.newer hpage (htold hy) hlt
    · rcases w.mem_ids.mp ha with ⟨hf, -⟩ | hin
      · have haround := w.mem_ids.mpr (.inl ⟨hf, (w.forward hf).2.1⟩)
        exact hgap y (List.mem_of_mem_take (htold hy)) a ha around haround hay hle
      · exact w.mem_ids.mpr (.inr (mem_windowIds_of_le w.ascends_read (htold hy) hle hin hay))
  -- `begun`, and `awayBegun`: the start held before, or one the page reaches back to.
  · obtain ⟨hpage, htold⟩ := hboth he
    rcases Bool.or_eq_true_iff.mp hstart with hold | hback
    · obtain ⟨b, hb, hleast⟩ := hbefore hold
      exact ⟨b, hb, hleast y (List.mem_of_mem_take (htold hy))⟩
    · rcases lt_or_ge around y with hlt | hle
      · exact ⟨y, w.newer hpage (htold hy) hlt, le_rfl⟩
      · exact ⟨y, w.older hback (htold hy) hle, le_rfl⟩
  · rcases Bool.or_eq_true_iff.mp hstart with hold | hback
    · exact hbefore hold
    · exact w.least hback (hends he)
  · cases htrue : pageEnds around page with
    | true => exact fun hnil => hends he htrue (List.map_eq_nil_iff.mp hnil)
    | false =>
      obtain ⟨y, hy, -⟩ := w.exists_newer htrue
      exact List.ne_nil_of_mem (w.mem_ids.mpr (.inr hy))
  -- `loadedSome`: an empty window is of a room that had nothing to deliver.
  · have hnil : ids (windowed stream replace page) = [] := hnil
    obtain ⟨hpage, htold⟩ := hboth he
    have hempty : windowIds (all.take read) around = [] := by
      refine List.eq_nil_iff_forall_not_mem.mpr fun y hy => ?_
      have hin := w.mem_ids.mpr (.inr hy)
      rw [hnil] at hin
      cases hin
    refine List.eq_nil_iff_forall_not_mem.mpr fun y hy => ?_
    rcases lt_or_ge around y with hlt | hle
    · have hin := w.newer hpage (htold hy) hlt
      rw [hnil] at hin
      cases hin
    · have hnone : ((windowIds (all.take read) around).filter fun id => id ≤ around).length <
          windowOlder := by
        rw [hempty]
        exact (by decide : 0 < windowOlder)
      have hin := mem_windowIds_of_older hnone (htold hy) hle
      rw [hempty] at hin
      cases hin

end Windows

end Pages

section Trims
variable {first last : MessageId} {start stop : ℕ}

/-- What is kept is some of what was held, what is shown among it. -/
theorem trimRange_some (hr : trimRange stream first last = some (start, stop)) :
    start < stop ∧ stop ≤ stream.messages.length ∧ stream.loading = false := by
  unfold trimRange at hr
  split at hr
  · cases hr
  · next hbusy =>
    dsimp only at hr
    split at hr
    · cases hr
    · next hshown =>
      split at hr
      · cases hr
      · simp only [Option.some.injEq, Prod.mk.injEq] at hr
        simp only [Bool.or_eq_true, decide_eq_true_eq, not_or, not_le, not_lt] at hshown hbusy
        obtain ⟨hstart, hstop⟩ := hr
        exact ⟨by omega, by omega, Bool.eq_false_iff.mpr hbusy.1⟩

/-- The ids kept of a range. -/
def keptIds (stream : Stream) (start stop : ℕ) : List MessageId := (stream.ids.take stop).drop start

theorem ids_range : ids ((stream.messages.take stop).drop start) = keptIds stream start stop := by
  rw [ids, List.map_drop, List.map_take]
  rfl

theorem keptIds_subset : keptIds stream start stop ⊆ stream.ids :=
  List.Subset.trans (List.drop_subset _ _) (List.take_subset _ _)

theorem exists_mem_keptIds (hr : trimRange stream first last = some (start, stop)) :
    ∃ b, b ∈ keptIds stream start stop := by
  obtain ⟨hlt, hle, -⟩ := trimRange_some hr
  refine List.exists_mem_of_length_pos ?_
  rw [keptIds, List.length_drop, List.length_take, Stream.ids, ids, List.length_map]
  omega

/-- The older end alone is let go of. -/
theorem trimsStart (h : Fits all told stream) (hend : stream.atEnd = true) {n : ℕ}
    (hids : stream'.ids = stream.ids.drop n) (hsome : stream'.ids ≠ [])
    (hstart : stream'.atStart = true → n = 0 ∧ stream.atStart = true)
    (hend' : stream'.atEnd = true) : Fits all told stream' := by
  have hne : ¬ stream'.atEnd = false := by rw [hend']; exact Bool.noConfusion
  refine ⟨hids ▸ h.ascends.sublist (List.drop_sublist _ _),
    hids ▸ List.Subset.trans (List.drop_subset _ _) h.real,
    fun _ => hids ▸ (h.ended hend).drop h.ascends n, fun _ hbegin => ?_, fun he => absurd he hne,
    fun he => absurd he hne, fun he => absurd he hne, fun _ _ hnil => absurd hnil hsome⟩
  obtain ⟨hzero, hfirst⟩ := hstart hbegin
  rw [hids, hzero, List.drop_zero]
  exact h.begun hend hfirst

/-- The newer end is let go of. What is kept has no gap then: frames for it come no more. -/
theorem trimsEnd (h : Fits all told stream) (hs : all.Pairwise (· < ·))
    (hids : stream'.ids = keptIds stream start stop) (hsome : ∃ b, b ∈ keptIds stream start stop)
    (hstart : stream'.atStart = true → start = 0 ∧ stream.atStart = true)
    (hend' : stream'.atEnd = false)
    (hok : stream.atEnd = true → ∀ x ∈ all, ∀ b ∈ keptIds stream start stop, x ≤ b →
      (start = 0 ∧ stream.atStart = true ∨ ∃ a ∈ keptIds stream start stop, a ≤ x) →
      x ∈ keptIds stream start stop) : Fits all told stream' := by
  have hne : ¬ stream'.atEnd = true := by rw [hend']; exact Bool.noConfusion
  have htake := h.ascends.sublist (List.take_sublist stop _)
  obtain ⟨b, hb⟩ := hsome
  refine ⟨hids ▸ htake.sublist (List.drop_sublist _ _),
    hids ▸ List.Subset.trans keptIds_subset h.real, fun he => absurd he hne,
    fun he => absurd he hne, fun _ => ?_, fun _ hbegin => ?_,
    fun _ _ => hids ▸ List.ne_nil_of_mem hb, fun _ he => absurd he hne⟩
  · rw [hids]
    cases hat : stream.atEnd with
    | true => exact fun x hx a ha b hb hax hxb => hok hat x hx b hb hxb (.inr ⟨a, ha, hax⟩)
    | false => exact ((h.whole hat).take h.ascends stop).drop htake start
  · obtain ⟨hzero, hfirst⟩ := hstart hbegin
    obtain ⟨m, hm, hleast⟩ := exists_least hs (h.real (keptIds_subset hb))
    have hmb := hleast b (h.real (keptIds_subset hb))
    refine ⟨m, ?_, hleast⟩
    rw [hids]
    cases hat : stream.atEnd with
    | true => exact hok hat m hm b hb hmb (.inl ⟨hzero, hfirst⟩)
    | false =>
      obtain ⟨c, hc, hcall⟩ := h.awayBegun hat hfirst
      have hcm : c = m := le_antisymm (hcall m hm) (hleast c (h.real hc))
      rw [keptIds, hzero, List.drop_zero] at hb ⊢
      exact mem_take_of_le h.ascends (hcm ▸ hc) hb hmb

/-- What the room on screen keeps. -/
theorem trims (h : Fits all told stream) (hs : all.Pairwise (· < ·))
    (hr : trimRange stream first last = some (start, stop))
    (hids : stream'.ids = keptIds stream start stop)
    (hstart : stream'.atStart = (decide (start = 0) && stream.atStart))
    (hend : stream'.atEnd = (decide (stop = stream.messages.length) && stream.atEnd))
    (hok : stream.atEnd = true → stop ≠ stream.messages.length →
      ∀ x ∈ all, ∀ b ∈ keptIds stream start stop, x ≤ b →
        (start = 0 ∧ stream.atStart = true ∨ ∃ a ∈ keptIds stream start stop, a ≤ x) →
        x ∈ keptIds stream start stop) : Fits all told stream' := by
  have hbegin (ht : stream'.atStart = true) : start = 0 ∧ stream.atStart = true := by
    rw [hstart, Bool.and_eq_true, decide_eq_true_eq] at ht
    exact ht
  obtain ⟨b, hb⟩ := exists_mem_keptIds hr
  cases hat : stream'.atEnd with
  | true =>
    rw [hend, Bool.and_eq_true, decide_eq_true_eq] at hat
    have hdrop : keptIds stream start stop = stream.ids.drop start := by
      rw [keptIds, hat.1, List.take_of_length_le]
      rw [Stream.ids, ids, List.length_map]
    refine h.trimsStart hat.2 (hids.trans hdrop) ?_ hbegin ?_
    · exact hids ▸ List.ne_nil_of_mem hb
    · rw [hend, Bool.and_eq_true, decide_eq_true_eq]
      exact hat
  | false =>
    refine h.trimsEnd hs hids ⟨b, hb⟩ hbegin hat fun htrue => hok htrue fun hstop => ?_
    rw [hend, htrue, Bool.and_true, decide_eq_false_iff_not] at hat
    exact hat hstop

/-- Another room is opened: the newest page is kept. -/
theorem releases (h : Fits all told stream) (hend : stream.atEnd = true)
    (hlong : pageSize < stream.messages.length)
    (hm : stream'.messages = stream.messages.drop (stream.messages.length - pageSize))
    (hstart : stream'.atStart = false) (hend' : stream'.atEnd = true) :
    Fits all told stream' := by
  have hids : stream'.ids = stream.ids.drop (stream.messages.length - pageSize) := by
    rw [Stream.ids, ids, hm, List.map_drop]
    rfl
  refine h.trimsStart hend hids (fun hnil => ?_) (fun ht => ?_) hend'
  · have hlen := congrArg List.length (hids.symm.trans hnil)
    have hpos : 0 < pageSize := by decide
    rw [List.length_drop, Stream.ids, ids, List.length_map, List.length_nil] at hlen
    omega
  · rw [hstart] at ht
    cases ht

end Trims

end Fits

end Linger.History
