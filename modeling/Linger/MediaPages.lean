import Linger.Media

/-! A page of the media collection: the three queries and their merge make one page of everything
that is shown, in the collection's order, that the cursor lets through. -/
namespace Linger.Media
open KeysetPages

namespace Group

def rank : Group → ℕ
  | .upload .. => 0
  | .links .. => 1
  | .pin _ => 2

/-- The collection's order: of a message's links and its pin, the links come first. -/
def Before (g h : Group) : Prop :=
  g.sooner h = true ∨ g.starred = h.starred ∧ g.createdAt = h.createdAt ∧ g.id = h.id ∧
    g.rank < h.rank

theorem sooner_iff {g h : Group} : g.sooner h = true ↔
    (g.starred = true ∧ h.starred = false) ∨ g.starred = h.starred ∧
      (h.createdAt < g.createdAt ∨ g.createdAt = h.createdAt ∧ h.id < g.id) := by
  simp [sooner]

theorem le_iff {g h : Group} : le g h ↔
    (h.starred = true → g.starred = true) ∧ (g.starred = h.starred →
      h.createdAt < g.createdAt ∨ g.createdAt = h.createdAt ∧ h.id ≤ g.id) := by
  rw [le, ← Bool.not_eq_true, sooner_iff]
  cases g.starred <;> cases h.starred <;> simp <;> omega

instance : Std.Total le := ⟨fun g h => by
  rw [le_iff, le_iff]
  cases g.starred <;> cases h.starred <;> simp <;> omega⟩

instance : IsTrans Group le := ⟨fun a b d hab hbd => by
  rw [le_iff] at hab hbd ⊢
  revert hab hbd
  cases a.starred <;> cases b.starred <;> cases d.starred <;> simp <;> omega⟩

theorem before_of_not_le {g h : Group} (hle : ¬ le h g) : g.Before h := by
  rw [le, Bool.not_eq_false] at hle
  exact .inl hle

theorem before_iff {g h : Group} : g.Before h ↔
    (g.starred = true ∧ h.starred = false) ∨ g.starred = h.starred ∧
      (h.createdAt < g.createdAt ∨ g.createdAt = h.createdAt ∧
        (h.id < g.id ∨ g.id = h.id ∧ g.rank < h.rank)) := by
  rw [Before, sooner_iff]
  cases g.starred <;> cases h.starred <;> simp <;> omega

theorem before_asymm (g h : Group) (hgh : g.Before h) : ¬ h.Before g := by
  rw [before_iff] at hgh ⊢
  revert hgh
  cases g.starred <;> cases h.starred <;> simp <;> omega

theorem same_key {g h : Group} (hgh : le g h) (hhg : le h g) :
    g.starred = h.starred ∧ g.createdAt = h.createdAt ∧ g.id = h.id := by
  rw [le_iff] at hgh hhg
  revert hgh hhg
  cases g.starred <;> cases h.starred <;> simp <;> omega

end Group

/-- Newer, or as new with a greater id. -/
def Newer (m m' : Message) : Prop :=
  m'.createdAt < m.createdAt ∨ m'.createdAt = m.createdAt ∧ m'.id < m.id

instance : Std.Total Collection.newestFirst := ⟨fun m m' => by
  simp only [Collection.newestFirst]
  omega⟩

instance : IsTrans Message Collection.newestFirst := ⟨fun a b d hab hbd => by
  simp only [Collection.newestFirst] at hab hbd ⊢
  omega⟩

theorem newer_of_not {m m' : Message} (h : ¬ Collection.newestFirst m' m) : Newer m m' :=
  not_not.mp h

section Shown
variable (c : Collection) (q : Query)

/-- Everything that matches, whatever the cursor and the limit. -/
def shown : List Group :=
  (if wantsAttachments q.kind then c.attachments.filterMap (c.uploadRow q) else []) ++
    (if q.wants .link then
      (c.messages.filter fun m => c.showsMessage q m && c.links.any (·.messageId == m.id)).map
          fun m =>
        Group.links m (c.linksOf m) else []) ++
    if q.wants .pin then
      (c.messages.filter fun m => m.pinnedAt.isSome && c.showsMessage q m).map Group.pin else []

/-- The collection, in its order. -/
def listing : List Group := (shown c q).insertionSort Group.le

/-- What a cursor lets through. -/
def through (pastStarred : Bool) (before : Option Cursor) : Group → Bool
  | .upload a _ => before.all fun cursor => Collection.ahead pastStarred cursor a
  | .links m _ | .pin m => before.all fun cursor => cursor.past m.createdAt m.id

variable {c q} {g h : Group} {a : Attachment} {m : Message} {before : Option Cursor}
  {pastStarred : Bool}

theorem uploadRow_some (hrow : c.uploadRow q a = some g) :
    ∃ m ∈ c.messages, g = .upload a m ∧ a.messageId = some m.id ∧ c.showsUpload q a m = true := by
  obtain ⟨m, hm, hrow⟩ := Option.bind_eq_some_iff.mp hrow
  obtain ⟨id, hid, hm⟩ := Option.bind_eq_some_iff.mp hm
  obtain ⟨hshows, hg⟩ := Option.ite_none_right_eq_some.mp hrow
  cases hg
  have hmessage : m.id = id := by simpa using List.find?_some hm
  exact ⟨m, List.mem_of_find?_eq_some hm, rfl, by rw [hid, hmessage], hshows⟩

/-- Uploads that are shown have ids of their own, and messages have two groups at most. -/
theorem shown_pairwise : (shown c q).Pairwise fun g h => g.id = h.id → g.rank < h.rank := by
  -- Within each of the three sources the ids differ.
  have hmessages (p : Message → Bool) (f : Message → Group) (hf : ∀ m, (f m).id = m.id) :
      ((c.messages.filter p).map f).Pairwise fun g h => g.id = h.id → g.rank < h.rank := by
    rw [List.pairwise_map]
    refine (c.messageIds.filter p).imp fun hne hid => absurd ?_ hne
    rw [hf, hf] at hid
    exact hid
  have huploads : (c.attachments.filterMap (c.uploadRow q)).Pairwise
      fun g h => g.id = h.id → g.rank < h.rank := by
    rw [List.pairwise_filterMap]
    refine c.attachmentIds.imp fun hne g hg h hh hid => absurd ?_ hne
    obtain ⟨_, -, rfl, -⟩ := uploadRow_some hg
    obtain ⟨_, -, rfl, -⟩ := uploadRow_some hh
    exact hid
  -- An upload's group has an upload's id, a link's or a pin's its message's.
  have hupload {g : Group} (hg : g ∈ if wantsAttachments q.kind then
      c.attachments.filterMap (c.uploadRow q) else []) : ∃ a ∈ c.attachments, g.id = a.id := by
    split at hg
    · obtain ⟨a, ha, hg⟩ := List.mem_filterMap.mp hg
      obtain ⟨m, -, rfl, -⟩ := uploadRow_some hg
      exact ⟨a, ha, rfl⟩
    · cases hg
  have hmessage {g : Group} {p : Message → Bool} {f : Message →
      Group} {w : Bool} (hf : ∀ m, (f m).id = m.id)
      (hg : g ∈ if w then (c.messages.filter p).map f else []) :
      ∃ m ∈ c.messages, g.id = m.id ∧ g = f m := by
    split at hg
    · obtain ⟨m, hm, rfl⟩ := List.mem_map.mp hg
      exact ⟨m, List.mem_of_mem_filter hm, hf m, rfl⟩
    · cases hg
  rw [shown]
  refine List.pairwise_append.mpr ⟨List.pairwise_append.mpr ⟨?_, ?_, ?_⟩, ?_, ?_⟩
  · split
    · exact huploads
    · exact .nil
  · split
    · exact hmessages _ _ fun _ => rfl
    · exact .nil
  -- An upload's id is no message's.
  · intro g hg h hh hid
    obtain ⟨a, ha, hga⟩ := hupload hg
    obtain ⟨m, hm, hhm, -⟩ := hmessage (fun _ => rfl) hh
    exact absurd (hga.symm.trans (hid.trans hhm)) (c.apart a ha m hm)
  · split
    · exact hmessages _ _ fun _ => rfl
    · exact .nil
  -- Only a message's links and its pin share an id, and the pin is ranked after.
  · intro g hg h hh hid
    obtain ⟨m, hm, hhm, rfl⟩ := hmessage (fun _ => rfl) hh
    rcases List.mem_append.mp hg with hg | hg
    · obtain ⟨a, ha, hga⟩ := hupload hg
      exact absurd (hga.symm.trans (hid.trans hhm)) (c.apart a ha m hm)
    · obtain ⟨_, -, -, rfl⟩ := hmessage (fun _ => rfl) hg
      exact Nat.lt_succ_self _

theorem listing_pairwise : (listing c q).Pairwise Group.Before := by
  apply pairwise_insertionSort fun _ _ => Group.before_of_not_le
  refine shown_pairwise.imp fun hrank hgh hhg => ?_
  obtain ⟨hstar, hcreated, hid⟩ := Group.same_key hgh hhg
  exact .inr ⟨hstar, hcreated, hid, hrank hid⟩

theorem mem_listing : g ∈ listing c q ↔ g ∈ shown c q := List.mem_insertionSort _

theorem mem_shown : g ∈ shown c q ↔
    (wantsAttachments q.kind = true ∧ ∃ a ∈ c.attachments, c.uploadRow q a = some g) ∨
    (q.wants .link = true ∧ ∃ m ∈ c.messages,
      (c.showsMessage q m = true ∧ c.links.any (·.messageId == m.id) = true) ∧
        .links m (c.linksOf m) = g) ∨
    (q.wants .pin = true ∧ ∃ m ∈ c.messages,
      (m.pinnedAt.isSome = true ∧ c.showsMessage q m = true) ∧ .pin m = g) := by
  rw [shown, List.mem_append, List.mem_append, or_assoc]
  refine or_congr ?_ (or_congr ?_ ?_)
  · rw [List.mem_ite_nil_right, List.mem_filterMap]
  · simp only [List.mem_ite_nil_right, List.mem_map, List.mem_filter, Bool.and_eq_true, and_assoc]
  · simp only [List.mem_ite_nil_right, List.mem_map, List.mem_filter, Bool.and_eq_true, and_assoc]

/-- Every group has something in it. -/
theorem weight_pos (hg : g ∈ listing c q) : 0 < g.weight := by
  rcases mem_shown.mp (mem_listing.mp hg) with
    ⟨-, a, -, hrow⟩ | ⟨-, m, -, ⟨-, hany⟩, rfl⟩ | ⟨-, m, -, -, rfl⟩
  · obtain ⟨m, -, rfl, -⟩ := uploadRow_some hrow
    exact Nat.one_pos
  · obtain ⟨l, hl, hid⟩ := List.any_eq_true.mp hany
    have hmem : l ∈ c.linksOf m := (List.mem_insertionSort _).mpr (List.mem_filter.mpr ⟨hl, hid⟩)
    rw [Group.weight, Group.items, List.length_map]
    exact List.length_pos_of_mem hmem
  · exact Nat.one_pos

/-- What is shown past a cursor. -/
def rest (c : Collection) (q : Query) (pastStarred : Bool) (before : Option Cursor) : List Group :=
  (listing c q).filter (through pastStarred before)

theorem rest_pairwise : (rest c q pastStarred before).Pairwise Group.Before :=
  listing_pairwise.filter _

theorem mem_rest : g ∈ rest c q pastStarred before ↔
    g ∈ shown c q ∧ through pastStarred before g = true := by
  rw [rest, List.mem_filter, mem_listing]

/-- A source that is sorted has the same of what is left, in the same order. -/
theorem source_eq {gs : List Group} {k : ℕ} (hgs : gs.Pairwise Group.Before)
    (hmem : ∀ g, g ∈ gs ↔ g ∈ shown c q ∧ through pastStarred before g = true ∧ g.rank = k) :
    gs = (rest c q pastStarred before).filter fun g => g.rank == k := by
  apply eq_of_pairwise_of_mem Group.before_asymm hgs (rest_pairwise.filter _)
  intro g
  rw [hmem, List.mem_filter, mem_rest, beq_iff_eq, and_assoc]

theorem attachment_source :
    (if wantsAttachments q.kind then
      c.attachmentGroups { q with before := before } pastStarred else []) =
      ((rest c q pastStarred before).filter fun g => g.rank == 0).take q.limit := by
  split
  · next hwants =>
    rw [Collection.attachmentGroups]
    refine congrArg (List.take q.limit) (source_eq ?_ fun g => ?_)
    · apply pairwise_insertionSort fun _ _ => Group.before_of_not_le
      rw [List.pairwise_filterMap]
      refine (c.attachmentIds.filter _).imp fun hne g hg h hh hgh hhg => absurd ?_ hne
      obtain ⟨_, -, rfl, -⟩ := uploadRow_some hg
      obtain ⟨_, -, rfl, -⟩ := uploadRow_some hh
      exact (Group.same_key hgh hhg).2.2
    · rw [List.mem_insertionSort, List.mem_filterMap, mem_shown]
      constructor
      · rintro ⟨a, ha, hrow⟩
        obtain ⟨ha, hahead⟩ := List.mem_filter.mp ha
        obtain ⟨m, -, rfl, -⟩ := uploadRow_some hrow
        exact ⟨.inl ⟨hwants, a, ha, hrow⟩, hahead, rfl⟩
      · rintro ⟨⟨-, a, ha, hrow⟩ | ⟨-, m, -, -, rfl⟩ | ⟨-, m, -, -, rfl⟩, hthrough, hrank⟩
        · obtain ⟨m, -, rfl, -⟩ := uploadRow_some hrow
          exact ⟨a, List.mem_filter.mpr ⟨ha, hthrough⟩, hrow⟩
        · cases hrank
        · cases hrank
  · next hwants =>
    have hnone : (rest c q pastStarred before).filter (fun g => g.rank == 0) = [] := by
      rw [List.filter_eq_nil_iff]
      intro g hg hrank
      rcases mem_shown.mp (mem_rest.mp hg).1 with ⟨hw, -⟩ | ⟨-, m, -, -, rfl⟩ | ⟨-, m, -, -, rfl⟩
      · exact hwants hw
      · cases hrank
      · cases hrank
    rw [hnone, List.take_nil]

/-- Messages newest first, each with its group, are sorted as the collection is. -/
theorem message_source {p : Message → Bool} {f : Message → Group} {k : ℕ}
    (hkey : ∀ m, (f m).starred = false ∧ (f m).createdAt = m.createdAt ∧ (f m).id = m.id)
    (hmem : ∀ g, (∃ m ∈ c.messages, p m = true ∧ f m = g) ↔
      g ∈ shown c q ∧ through pastStarred before g = true ∧ g.rank = k) :
    ((c.messages.filter p).insertionSort Collection.newestFirst).map f =
      (rest c q pastStarred before).filter fun g => g.rank == k := by
  have hnewer : ((c.messages.filter p).insertionSort Collection.newestFirst).Pairwise Newer := by
    apply pairwise_insertionSort fun _ _ => newer_of_not
    refine (c.messageIds.filter p).imp fun hne hab hba => absurd ?_ hne
    simp only [Collection.newestFirst] at hab hba
    omega
  refine source_eq ?_ fun g => ?_
  · rw [List.pairwise_map]
    refine hnewer.imp fun {m m'} hmm => Group.before_iff.mpr (.inr ?_)
    obtain ⟨hs, hc, hi⟩ := hkey m
    obtain ⟨hs', hc', hi'⟩ := hkey m'
    rw [hs, hs', hc, hc', hi, hi']
    refine ⟨rfl, ?_⟩
    rcases hmm with hlt | ⟨he, hlt⟩
    · exact .inl hlt
    · exact .inr ⟨he.symm, .inl hlt⟩
  · rw [← hmem, List.mem_map]
    simp only [List.mem_insertionSort, List.mem_filter, and_assoc]

theorem pushRow_last (groups : List (Message × List Link)) (m : Message) (ls ls' : List Link) :
    (ls'.map fun l => (l, m)).foldl Collection.pushRow (groups ++ [(m, ls)]) =
      groups ++ [(m, ls ++ ls')] := by
  induction ls' generalizing ls with
  | nil => simp
  | cons l ls' ih =>
    have hpush : Collection.pushRow (groups ++ [(m, ls)]) (l, m) = groups ++ [(m, ls ++ [l])] := by
      simp [Collection.pushRow]
    rw [List.map_cons, List.foldl_cons, hpush, ih, List.append_assoc, List.singleton_append]

/-- Rows that come message by message are put together message by message. -/
theorem pushRow_all {f : Message → List Link} {ms : List Message} (hf : ∀ m ∈ ms, f m ≠ [])
    (hms : ms.Pairwise fun m m' => m.id ≠ m'.id) (groups : List (Message × List Link))
    (hlast : ∀ e ∈ groups.getLast?, ∀ m ∈ ms, e.1.id ≠ m.id) :
    (ms.flatMap fun m => (f m).map fun l => (l, m)).foldl Collection.pushRow groups =
      groups ++ ms.map fun m => (m, f m) := by
  induction ms generalizing groups with
  | nil => simp
  | cons m ms ih =>
    obtain ⟨hm, hms⟩ := List.pairwise_cons.mp hms
    obtain ⟨l, ls, hls⟩ := List.exists_cons_of_ne_nil (hf m (.head _))
    have hfirst : Collection.pushRow groups (l, m) = groups ++ [(m, [l])] := by
      rw [Collection.pushRow]
      split
      · next other ls' hother => rw [if_neg (hlast _ hother m (.head _))]
      · next hnone => rw [List.getLast?_eq_none_iff.mp hnone, List.nil_append]
    have hrows :
        ((f m).map fun l => (l, m)).foldl Collection.pushRow groups = groups ++ [(m, f m)] := by
      rw [hls, List.map_cons, List.foldl_cons, hfirst, pushRow_last, List.singleton_append]
    rw [List.flatMap_cons, List.foldl_append, hrows, ih (fun m hmem => hf m (.tail _ hmem)) hms]
    · rw [List.map_cons, List.append_assoc, List.singleton_append]
    · intro e he m' hm'
      rw [List.getLast?_concat] at he
      cases he
      exact hm m' hm'

/-- The links query makes a group of each message it covers, whole. -/
theorem linkGroups_eq : c.linkGroups q =
    ((((c.messages.filter fun m => c.showsMessage q m && Collection.isPast q m &&
      c.links.any (·.messageId == m.id)).insertionSort Collection.newestFirst).take q.limit).map
        fun m => Group.links m (c.linksOf m)) := by
  have hmem {m : Message} (hm : m ∈ ((c.messages.filter fun m => c.showsMessage q m &&
      Collection.isPast q m && c.links.any (·.messageId == m.id)).insertionSort
        Collection.newestFirst).take q.limit) :
      m ∈ c.messages ∧ c.links.any (·.messageId == m.id) = true := by
    obtain ⟨hm, hp⟩ := List.mem_filter.mp ((List.mem_insertionSort _).mp (List.mem_of_mem_take hm))
    exact ⟨hm, (Bool.and_eq_true _ _ ▸ hp).2⟩
  have hids : (((c.messages.filter fun m => c.showsMessage q m && Collection.isPast q m &&
      c.links.any (·.messageId == m.id)).insertionSort Collection.newestFirst).take
        q.limit).Pairwise
        fun m m' => m.id ≠ m'.id := by
    refine List.Pairwise.sublist (List.take_sublist _ _) ?_
    exact (List.perm_insertionSort _ _).symm.pairwise (c.messageIds.filter _) fun h => Ne.symm h
  have hlinks (m : Message) (hany : c.links.any (·.messageId == m.id) = true) :
      c.linksOf m ≠ [] := by
    obtain ⟨l, hl, hid⟩ := List.any_eq_true.mp hany
    exact List.ne_nil_of_mem ((List.mem_insertionSort _).mpr (List.mem_filter.mpr ⟨hl, hid⟩))
  rw [Collection.linkGroups, Collection.linkRows,
    pushRow_all (fun m hm => hlinks m (hmem hm).2) hids [] (fun e he => by cases he),
    List.nil_append, List.map_map]
  refine List.map_congr_left fun m hm => ?_
  have hfew : (c.linksOf m).length ≤ MAX_LINKS_PER_MESSAGE := by
    rw [Collection.linksOf, List.length_insertionSort]
    exact c.few m (hmem hm).1
  rw [Function.comp_apply, List.take_of_length_le hfew]

theorem link_source : (if q.wants .link then c.linkGroups { q with before := before } else []) =
    ((rest c q pastStarred before).filter fun g => g.rank == 1).take q.limit := by
  split
  · next hwants =>
    rw [linkGroups_eq, List.map_take]
    refine congrArg (List.take q.limit) (message_source (fun m => ⟨rfl, rfl, rfl⟩) fun g => ?_)
    rw [mem_shown]
    constructor
    · rintro ⟨m, hm, hp, rfl⟩
      simp only [Bool.and_eq_true] at hp
      exact ⟨.inr (.inl ⟨hwants, m, hm, ⟨hp.1.1, hp.2⟩, rfl⟩), hp.1.2, rfl⟩
    · rintro ⟨⟨-, a, ha, hrow⟩ | ⟨-, m, hm, hp, rfl⟩ | ⟨-, m, -, -, rfl⟩, hthrough, hrank⟩
      · obtain ⟨_, -, rfl, -⟩ := uploadRow_some hrow
        cases hrank
      · refine ⟨m, hm, ?_, rfl⟩
        simp only [Bool.and_eq_true]
        exact ⟨⟨hp.1, hthrough⟩, hp.2⟩
      · cases hrank
  · next hwants =>
    have hnone : (rest c q pastStarred before).filter (fun g => g.rank == 1) = [] := by
      rw [List.filter_eq_nil_iff]
      intro g hg hrank
      rcases mem_shown.mp (mem_rest.mp hg).1 with ⟨-, a, -, hrow⟩ | ⟨hw, -⟩ | ⟨-, m, -, -, rfl⟩
      · obtain ⟨_, -, rfl, -⟩ := uploadRow_some hrow
        cases hrank
      · exact hwants hw
      · cases hrank
    rw [hnone, List.take_nil]

theorem pin_source : (if q.wants .pin then c.pinGroups { q with before := before } else []) =
    ((rest c q pastStarred before).filter fun g => g.rank == 2).take q.limit := by
  split
  · next hwants =>
    rw [Collection.pinGroups, List.map_take]
    refine congrArg (List.take q.limit) (message_source (fun m => ⟨rfl, rfl, rfl⟩) fun g => ?_)
    rw [mem_shown]
    constructor
    · rintro ⟨m, hm, hp, rfl⟩
      simp only [Bool.and_eq_true] at hp
      exact ⟨.inr (.inr ⟨hwants, m, hm, hp.1, rfl⟩), hp.2, rfl⟩
    · rintro ⟨⟨-, a, ha, hrow⟩ | ⟨-, m, -, -, rfl⟩ | ⟨-, m, hm, hp, rfl⟩, hthrough, hrank⟩
      · obtain ⟨_, -, rfl, -⟩ := uploadRow_some hrow
        cases hrank
      · cases hrank
      · refine ⟨m, hm, ?_, rfl⟩
        simp only [Bool.and_eq_true]
        exact ⟨hp, hthrough⟩
  · next hwants =>
    have hnone : (rest c q pastStarred before).filter (fun g => g.rank == 2) = [] := by
      rw [List.filter_eq_nil_iff]
      intro g hg hrank
      rcases mem_shown.mp (mem_rest.mp hg).1 with ⟨-, a, -, hrow⟩ | ⟨-, m, -, -, rfl⟩ | ⟨hw, -⟩
      · obtain ⟨_, -, rfl, -⟩ := uploadRow_some hrow
        cases hrank
      · cases hrank
      · exact hwants hw
    rw [hnone, List.take_nil]

theorem takeItems_eq (limit : ℕ) (items : List Item) (gs : List Group) :
    takeItems limit items gs =
      items ++ (KeysetPages.page Group.weight limit items.length gs).flatMap Group.items := by
  induction gs generalizing items with
  | nil => simp [takeItems, KeysetPages.page]
  | cons g gs ih =>
    rw [takeItems, KeysetPages.page]
    split
    · simp
    · rw [ih, List.length_append, List.flatMap_cons, List.append_assoc]
      rfl

/-- The groups of a page. -/
def pageGroups (c : Collection) (q : Query) (pastStarred : Bool) (before : Option Cursor) :
    List Group :=
  KeysetPages.page Group.weight q.limit 0 (rest c q pastStarred before)

/-- One page is the first of what the cursor lets through. -/
theorem page_eq (hpast : pastStarred = (before.map fun cursor => !c.isStarred cursor).getD false) :
    page c { q with before := before } =
      (pageGroups c q pastStarred before).flatMap Group.items := by
  -- The three queries are the three ranks of what the cursor lets through.
  have hsources : page c { q with before := before } = takeItems q.limit []
      (((((rest c q pastStarred before).filter fun g => g.rank == 0).take q.limit ++
        ((rest c q pastStarred before).filter fun g => g.rank == 1).take q.limit) ++
          ((rest c q pastStarred before).filter fun g => g.rank == 2).take q.limit).insertionSort
            Group.le) := by
    rw [← attachment_source, ← link_source, ← pin_source, hpast]
    rfl
  have hranked {g : Group} {k : ℕ}
      (hg : g ∈ ((rest c q pastStarred before).filter fun g => g.rank == k).take q.limit) :
      g ∈ rest c q pastStarred before ∧ g.rank = k := by
    obtain ⟨hmem, hrank⟩ := List.mem_filter.mp (List.mem_of_mem_take hg)
    exact ⟨hmem, by simpa using hrank⟩
  rw [hsources, takeItems_eq, List.nil_append]
  refine congrArg (List.flatMap Group.items) ?_
  -- Merged, the sources are in order, and their first are the first of the whole.
  generalize hys : (List.insertionSort Group.le _) = ys
  have hmem (g : Group) : g ∈ ys ↔ ∃ p ∈ [fun g : Group => g.rank == 0, fun g => g.rank == 1,
      fun g => g.rank == 2], g ∈ ((rest c q pastStarred before).filter p).take q.limit := by
    rw [← hys, List.mem_insertionSort, List.mem_append, List.mem_append, or_assoc]
    simp
  have hsorted : ys.Pairwise Group.Before := by
    have hclass (k : ℕ) :
        (((rest c q pastStarred before).filter fun g => g.rank == k).take q.limit).Pairwise
        fun g h => g.le h → h.le g → g.Before h :=
      ((rest_pairwise.filter _).sublist (List.take_sublist _ _)).imp fun hgh _ _ => hgh
    have hcross {g h : Group} (hrank : g.rank < h.rank) (hgh : g.le h) (hhg : h.le g) :
        g.Before h := by
      obtain ⟨hstar, hcreated, hid⟩ := Group.same_key hgh hhg
      exact .inr ⟨hstar, hcreated, hid, hrank⟩
    rw [← hys]
    apply pairwise_insertionSort fun _ _ => Group.before_of_not_le
    refine List.pairwise_append.mpr ⟨List.pairwise_append.mpr ⟨hclass 0, hclass 1, ?_⟩, hclass 2,
      ?_⟩
    · intro g hg h hh
      have h1 := (hranked hg).2
      have h2 := (hranked hh).2
      exact hcross (by omega)
    · intro g hg h hh
      have h2 := (hranked hh).2
      rcases List.mem_append.mp hg with hg | hg
      · have h1 := (hranked hg).2
        exact hcross (by omega)
      · have h1 := (hranked hg).2
        exact hcross (by omega)
  have htake : ys.take q.limit = (rest c q pastStarred before).take q.limit := by
    apply take_of_sources Group.before_asymm rest_pairwise hsorted (fun g _ => ?_) hmem
    cases g <;> simp [Group.rank]
  have hweight {gs : List Group} (hgs : ∀ g ∈ gs, g ∈ listing c q) : ∀ g ∈ gs, 0 < g.weight :=
    fun g hg => weight_pos (hgs g hg)
  have hrest (g : Group) (hg : g ∈ rest c q pastStarred before) : g ∈ listing c q :=
    List.mem_of_mem_filter hg
  have hysmem (g : Group) (hg : g ∈ ys) : g ∈ listing c q := by
    obtain ⟨p, -, hp⟩ := (hmem g).mp hg
    exact hrest g (List.mem_of_mem_filter (List.mem_of_mem_take hp))
  -- A page takes no more than its limit of groups.
  calc KeysetPages.page Group.weight q.limit 0 ys
      = KeysetPages.page Group.weight q.limit 0 (ys.take q.limit) :=
        (page_take (hweight hysmem) (by omega)).symm
    _ = KeysetPages.page Group.weight q.limit 0 ((rest c q pastStarred before).take q.limit) := by
      rw [htake]
    _ = pageGroups c q pastStarred before := page_take (hweight hrest) (by omega)

end Shown
end Linger.Media
