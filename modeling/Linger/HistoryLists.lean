import Linger.Stretch
import Linger.History

/-! What folding a message, a page or a window into a list does to the ids in it, and what the
server's pages and windows hold of a room. -/
namespace Linger.History
open Stretch

/-- The ids of a list of messages. -/
def ids (list : List Held) : List MessageId := list.map Held.id

/-- The ids of a room's. -/
def State.ids (st : State) : List MessageId := st.room.map Kept.id

section Lists
variable {list page : List Held} {message : Held} {id : MessageId}

theorem holds_iff : holds list id = true ↔ id ∈ ids list := by
  simp [holds, ids, List.any_eq_true]

theorem ids_putInPlace : ids (putInPlace list message) = ids list := by
  unfold putInPlace ids
  induction list with
  | nil => rfl
  | cons held list ih =>
    rw [List.replaceF]
    by_cases hid : held.id = message.id
    · simp [hid]
    · simp only [hid, if_false, List.map_cons]
      rw [ih]

theorem sortById_perm (list : List Held) : (sortById list).Perm list := List.perm_insertionSort _ _

theorem mem_ids_sortById : id ∈ ids (sortById list) ↔ id ∈ ids list :=
  ((sortById_perm list).map Held.id).mem_iff

/-- Sorted, messages that are all different ascend. -/
theorem ascending_sortById (h : (ids list).Nodup) : (ids (sortById list)).Pairwise (· < ·) := by
  have hsorted : (sortById list).Pairwise fun a b => a.id ≤ b.id :=
    List.pairwise_insertionSort _ _
  have hnodup : (ids (sortById list)).Nodup :=
    ((sortById_perm list).map Held.id).nodup_iff.mpr h
  rw [ids, List.pairwise_map]
  have hne : (sortById list).Pairwise fun a b => a.id ≠ b.id := List.pairwise_map.mp hnodup
  exact (hsorted.and hne).imp fun hboth => lt_of_le_of_ne hboth.1 hboth.2

theorem nodup_of_ascending (h : (ids list).Pairwise (· < ·)) : (ids list).Nodup :=
  h.imp fun hlt => ne_of_lt hlt

theorem ids_snoc : ids (list ++ [message]) = ids list ++ [message.id] := by
  rw [ids, List.map_append]
  rfl

theorem nodup_snoc (h : (ids list).Nodup) (hnew : message.id ∉ ids list) :
    (ids (list ++ [message])).Nodup := by
  rw [ids_snoc]
  exact h.append (List.nodup_singleton _) (List.disjoint_singleton.mpr hnew)

theorem mem_ids_mergeMessage :
    id ∈ ids (mergeMessage list message) ↔ id = message.id ∨ id ∈ ids list := by
  have hsnoc : id ∈ ids (list ++ [message]) ↔ id = message.id ∨ id ∈ ids list := by
    rw [ids_snoc, List.mem_append, List.mem_singleton, or_comm]
  unfold mergeMessage
  split
  · next hholds =>
    rw [ids_putInPlace]
    refine ⟨.inr, fun h => h.elim (fun he => ?_) fun h => h⟩
    rw [he]
    exact holds_iff.mp hholds
  · split
    · exact hsnoc
    · split
      · exact hsnoc
      · rw [mem_ids_sortById]
        exact hsnoc

theorem ascending_mergeMessage (h : (ids list).Pairwise (· < ·)) :
    (ids (mergeMessage list message)).Pairwise (· < ·) := by
  unfold mergeMessage
  split
  · rw [ids_putInPlace]
    exact h
  · next hholds =>
    have hnew : message.id ∉ ids list := fun hin => hholds (holds_iff.mpr hin)
    split
    · next hlast =>
      rw [List.getLast?_eq_none_iff.mp hlast]
      exact List.pairwise_singleton _ _
    · next newest hlast =>
      split
      · next hlt =>
        rw [ids_snoc]
        refine List.pairwise_append.mpr ⟨h, List.pairwise_singleton _ _, fun a ha b hb => ?_⟩
        rw [List.mem_singleton.mp hb]
        obtain ⟨held, hheld, rfl⟩ := List.mem_map.mp ha
        obtain ⟨init, rfl⟩ := List.getLast?_eq_some_iff.mp hlast
        rcases List.mem_append.mp hheld with hinit | hone
        · rw [ids_snoc] at h
          have hle := (List.pairwise_append.mp h).2.2 held.id (List.mem_map_of_mem hinit) newest.id
            (List.mem_singleton_self _)
          exact lt_trans hle hlt
        · rw [List.mem_singleton.mp hone]
          exact hlt
      · exact ascending_sortById (nodup_snoc (nodup_of_ascending h) hnew)

theorem ids_setByKey : (id ∈ ids (setByKey list message) ↔ id = message.id ∨ id ∈ ids list) ∧
    ((ids list).Nodup → (ids (setByKey list message)).Nodup) := by
  unfold setByKey
  split
  · next hholds =>
    rw [ids_putInPlace]
    refine ⟨⟨.inr, fun h => h.elim (fun he => ?_) fun h => h⟩, fun h => h⟩
    rw [he]
    exact holds_iff.mp hholds
  · next hholds =>
    refine ⟨?_, fun h => nodup_snoc h fun hin => hholds (holds_iff.mpr hin)⟩
    rw [ids_snoc, List.mem_append, List.mem_singleton, or_comm]

theorem ids_foldl_setByKey :
    (id ∈ ids (page.foldl setByKey list) ↔ id ∈ ids list ∨ id ∈ ids page) ∧
    ((ids list).Nodup → (ids (page.foldl setByKey list)).Nodup) := by
  induction page generalizing list with
  | nil => simp [ids]
  | cons message page ih =>
    rw [List.foldl_cons]
    refine ⟨?_, fun h => ih.2 ((@ids_setByKey list message id).2 h)⟩
    rw [ih.1, ids_setByKey.1, ids, ids, ids, List.map_cons, List.mem_cons, or_assoc, or_left_comm]

theorem mem_ids_mergePage : id ∈ ids (mergePage list page) ↔ id ∈ ids list ∨ id ∈ ids page := by
  have happend : id ∈ ids (sortById page ++ list) ↔ id ∈ ids list ∨ id ∈ ids page := by
    rw [ids, List.map_append, List.mem_append, or_comm]
    exact or_congr_right mem_ids_sortById
  unfold mergePage
  split
  · next hnil =>
    rw [List.isEmpty_iff.mp hnil]
    simp [ids]
  · dsimp only
    split
    · split
      · exact happend
      · rw [mem_ids_sortById, ids_foldl_setByKey.1, mem_ids_sortById]
    · exact happend

theorem ascending_mergePage (h : (ids list).Pairwise (· < ·)) (hpage : (ids page).Nodup) :
    (ids (mergePage list page)).Pairwise (· < ·) := by
  have holder := ascending_sortById hpage
  unfold mergePage
  split
  · exact h
  · next hnil =>
    dsimp only
    split
    · next first last hfirst hlast =>
      split
      · next hlt =>
        rw [ids, List.map_append]
        refine List.pairwise_append.mpr ⟨holder, h, fun a ha b hb => ?_⟩
        -- the page's last is below the list's first
        obtain ⟨init, hinit⟩ := List.getLast?_eq_some_iff.mp hlast
        obtain ⟨tail, rfl⟩ := List.head?_eq_some_iff.mp hfirst
        have hale : a ≤ last.id := by
          have hmem : a ∈ ids (sortById page) := ha
          rw [hinit, ids_snoc] at hmem holder
          rcases List.mem_append.mp hmem with hin | hone
          · exact le_of_lt
              ((List.pairwise_append.mp holder).2.2 a hin _ (List.mem_singleton_self _))
          · exact le_of_eq (List.mem_singleton.mp hone)
        have hble : first.id ≤ b := by
          rcases List.mem_cons.mp hb with he | hin
          · exact le_of_eq he.symm
          · exact le_of_lt ((List.pairwise_cons.mp h).1 b hin)
        exact lt_of_le_of_lt hale (lt_of_lt_of_le hlt hble)
      · exact ascending_sortById
          ((@ids_foldl_setByKey list (sortById page) 0).2 (nodup_of_ascending h))
    · next hnone =>
      -- there was nothing held
      cases list with
      | nil =>
        rw [List.append_nil]
        exact holder
      | cons first tail =>
        obtain ⟨last, hlast⟩ : ∃ last, (sortById page).getLast? = some last := by
          rw [← Option.isSome_iff_exists, List.getLast?_isSome]
          rintro hempty
          have hperm := sortById_perm page
          rw [hempty] at hperm
          exact hnil (List.isEmpty_iff.mpr hperm.symm.eq_nil)
        exact absurd hlast (hnone first last rfl)

end Lists

/-- The ids of a page, read off those of a room. -/
def pageIds (all : List MessageId) (before : Option MessageId) : List MessageId :=
  (all.filter fun id => before.all fun bound => id < bound).reverse.take pageSize

def windowIds (all : List MessageId) (around : MessageId) : List MessageId :=
  ((all.filter fun id => around < id).take windowNewer).reverse ++
    (all.filter fun id => id ≤ around).reverse.take windowOlder

section Read
variable {all : List MessageId} {before : Option MessageId} {around a x : MessageId}
  {room : List Kept}

theorem map_id_told (kept : List Kept) : ids (kept.map Kept.told) = kept.map Kept.id := by
  rw [ids, List.map_map]
  rfl

theorem ids_page : ids (page room before) = pageIds (room.map Kept.id) before := by
  rw [page, map_id_told, List.map_take, List.map_reverse, pageIds, List.filter_map]
  rfl

theorem ids_window : ids (window room around) = windowIds (room.map Kept.id) around := by
  rw [window, map_id_told, List.map_append, List.map_reverse, List.map_take, List.map_take,
    List.map_reverse, windowIds, List.filter_map, List.filter_map]
  rfl

theorem mem_of_mem_pageIds (h : x ∈ pageIds all before) :
    x ∈ all ∧ ∀ bound, before = some bound → x < bound := by
  have hmem := List.mem_filter.mp (List.mem_reverse.mp (List.mem_of_mem_take h))
  refine ⟨hmem.1, fun bound he => ?_⟩
  rw [he] at hmem
  exact of_decide_eq_true hmem.2

theorem mem_filter_before (hx : x ∈ all) (hb : ∀ bound, before = some bound → x < bound) :
    x ∈ all.filter fun id => before.all fun bound => id < bound := by
  refine List.mem_filter.mpr ⟨hx, ?_⟩
  cases before with
  | none => rfl
  | some bound => exact decide_eq_true (hb bound rfl)

/-- A page has all from its first on, up to where it was asked for. -/
theorem mem_pageIds_of_le (hs : all.Pairwise (· < ·)) (hx : x ∈ all)
    (hb : ∀ bound, before = some bound → x < bound) (ha : a ∈ pageIds all before) (hax : a ≤ x) :
    x ∈ pageIds all before :=
  mem_reverse_take_of_le (hs.filter _) (mem_filter_before hx hb) ha hax

theorem mem_pageIds_of_short (hshort : (pageIds all before).length < pageSize) (hx : x ∈ all)
    (hb : ∀ bound, before = some bound → x < bound) : x ∈ pageIds all before :=
  mem_take_of_short hshort (List.mem_reverse.mpr (mem_filter_before hx hb))

theorem nodup_pageIds (hs : all.Pairwise (· < ·)) : (pageIds all before).Nodup := by
  have hnodup : all.Nodup := hs.imp fun hlt => ne_of_lt hlt
  exact (List.nodup_reverse.mpr (hnodup.filter _)).sublist (List.take_sublist _ _)

theorem mem_windowIds : x ∈ windowIds all around ↔
    x ∈ (all.filter fun id => around < id).take windowNewer ∨
      x ∈ (all.filter fun id => id ≤ around).reverse.take windowOlder := by
  rw [windowIds, List.mem_append, List.mem_reverse]

theorem mem_newer (h : x ∈ (all.filter fun id => around < id).take windowNewer) :
    x ∈ all ∧ around < x := by
  have hmem := List.mem_filter.mp (List.mem_of_mem_take h)
  exact ⟨hmem.1, of_decide_eq_true hmem.2⟩

theorem mem_older (h : x ∈ (all.filter fun id => id ≤ around).reverse.take windowOlder) :
    x ∈ all ∧ x ≤ around := by
  have hmem := List.mem_filter.mp (List.mem_reverse.mp (List.mem_of_mem_take h))
  exact ⟨hmem.1, of_decide_eq_true hmem.2⟩

theorem mem_of_mem_windowIds (h : x ∈ windowIds all around) : x ∈ all :=
  (mem_windowIds.mp h).elim (fun h => (mem_newer h).1) fun h => (mem_older h).1

/-- A window has all from its first on, up to its middle, and all up to its last from there. -/
theorem mem_windowIds_of_le (hs : all.Pairwise (· < ·)) (hx : x ∈ all) (hle : x ≤ around)
    (ha : a ∈ windowIds all around) (hax : a ≤ x) : x ∈ windowIds all around := by
  rw [mem_windowIds] at ha ⊢
  have hmem : x ∈ all.filter fun id => id ≤ around :=
    List.mem_filter.mpr ⟨hx, decide_eq_true hle⟩
  refine .inr (mem_reverse_take_of_le (hs.filter _) hmem (ha.resolve_left fun hnew => ?_) hax)
  exact absurd (lt_of_lt_of_le (mem_newer hnew).2 hax) (not_lt.mpr hle)

theorem mem_windowIds_of_ge (hs : all.Pairwise (· < ·)) (hx : x ∈ all) (hgt : around < x)
    (ha : a ∈ windowIds all around) (hxa : x ≤ a) : x ∈ windowIds all around := by
  rw [mem_windowIds] at ha ⊢
  have hmem : x ∈ all.filter fun id => around < id :=
    List.mem_filter.mpr ⟨hx, decide_eq_true hgt⟩
  refine .inl (mem_take_of_le (hs.filter _) hmem (ha.resolve_right fun hold => ?_) hxa)
  exact absurd (hxa.trans (mem_older hold).2) (not_le.mpr hgt)

theorem windowIds_noGap (hs : all.Pairwise (· < ·)) : NoGap all (windowIds all around) := by
  intro x hx a ha b hb hax hxb
  rcases le_or_gt x around with hle | hgt
  · exact mem_windowIds_of_le hs hx hle ha hax
  · exact mem_windowIds_of_ge hs hx hgt hb hxb

theorem filter_newer_windowIds : (windowIds all around).filter (fun id => around < id) =
    ((all.filter fun id => around < id).take windowNewer).reverse := by
  rw [windowIds, List.filter_append]
  have hnew : (((all.filter fun id => around < id).take windowNewer).reverse.filter
      fun id => decide (around < id)) =
      ((all.filter fun id => around < id).take windowNewer).reverse :=
    List.filter_eq_self.mpr fun x hx => decide_eq_true (mem_newer (List.mem_reverse.mp hx)).2
  have hold : (((all.filter fun id => id ≤ around).reverse.take windowOlder).filter
      fun id => decide (around < id)) = [] :=
    List.filter_eq_nil_iff.mpr fun x hx hlt =>
      absurd (of_decide_eq_true hlt) (not_lt.mpr (mem_older hx).2)
  rw [hnew, hold, List.append_nil]

theorem filter_older_windowIds : (windowIds all around).filter (fun id => id ≤ around) =
    (all.filter fun id => id ≤ around).reverse.take windowOlder := by
  rw [windowIds, List.filter_append]
  have hnew : (((all.filter fun id => around < id).take windowNewer).reverse.filter
      fun id => decide (id ≤ around)) = [] :=
    List.filter_eq_nil_iff.mpr fun x hx hle =>
      absurd (of_decide_eq_true hle) (not_le.mpr (mem_newer (List.mem_reverse.mp hx)).2)
  have hold : (((all.filter fun id => id ≤ around).reverse.take windowOlder).filter
      fun id => decide (id ≤ around)) =
      (all.filter fun id => id ≤ around).reverse.take windowOlder :=
    List.filter_eq_self.mpr fun x hx => decide_eq_true (mem_older hx).2
  rw [hnew, hold, List.nil_append]

/-- A short newer half is all there is after the middle. -/
theorem mem_windowIds_of_newer
    (hshort : ((windowIds all around).filter fun id => around < id).length < windowNewer)
    (hx : x ∈ all) (hlt : around < x) : x ∈ windowIds all around := by
  rw [filter_newer_windowIds, List.length_reverse] at hshort
  exact mem_windowIds.mpr (.inl (mem_take_of_short hshort
    (List.mem_filter.mpr ⟨hx, decide_eq_true hlt⟩)))

theorem mem_windowIds_of_older
    (hshort : ((windowIds all around).filter fun id => id ≤ around).length < windowOlder)
    (hx : x ∈ all) (hle : x ≤ around) : x ∈ windowIds all around := by
  rw [filter_older_windowIds] at hshort
  exact mem_windowIds.mpr (.inr (mem_take_of_short hshort
    (List.mem_reverse.mpr (List.mem_filter.mpr ⟨hx, decide_eq_true hle⟩))))

/-- A window has its middle, if that is in the room. -/
theorem around_mem_windowIds (hs : all.Pairwise (· < ·)) (h : around ∈ all) :
    around ∈ windowIds all around := by
  have hmem : around ∈ all.filter fun id => id ≤ around :=
    List.mem_filter.mpr ⟨h, decide_eq_true le_rfl⟩
  have hne : (all.filter fun id => id ≤ around).reverse ≠ [] :=
    List.ne_nil_of_mem (List.mem_reverse.mpr hmem)
  obtain ⟨newest, rest, hlist⟩ := List.exists_cons_of_ne_nil hne
  have hhead : newest ∈ (all.filter fun id => id ≤ around).reverse.take windowOlder := by
    rw [hlist]
    exact List.mem_cons_self
  have hback := mem_reverse_take_of_le (hs.filter _) hmem hhead (mem_older hhead).2
  exact mem_windowIds.mpr (.inr hback)

theorem nodup_windowIds (hs : all.Pairwise (· < ·)) : (windowIds all around).Nodup := by
  have hnodup : all.Nodup := hs.imp fun hlt => ne_of_lt hlt
  refine List.Nodup.append (List.nodup_reverse.mpr ((hnodup.filter _).sublist
    (List.take_sublist _ _))) ((List.nodup_reverse.mpr (hnodup.filter _)).sublist
    (List.take_sublist _ _)) fun x hnew hold => ?_
  exact absurd (mem_newer (List.mem_reverse.mp hnew)).2 (not_lt.mpr (mem_older hold).2)

theorem pageEnds_iff {list : List Held} : pageEnds around list = true ↔
    ((ids list).filter fun id => around < id).length < windowNewer := by
  rw [pageEnds, decide_eq_true_eq, ids, List.filter_map, List.length_map]
  rfl

theorem reachesBack_iff {list : List Held} : reachesBack around list = true ↔
    ((ids list).filter fun id => id ≤ around).length < windowOlder := by
  rw [reachesBack, decide_eq_true_eq, ids, List.filter_map, List.length_map]
  rfl

end Read

end Linger.History
