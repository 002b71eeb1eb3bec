import Mathlib.Data.List.Pairwise
import Linger.MediaPages

/-! Reading the whole media collection page by page: where a page's last item hides what is still
to come. -/
namespace Linger.Media
open KeysetPages

namespace Group

def cursor (g : Group) : Cursor := ⟨g.createdAt, g.id⟩

/-- A cursor at `g` doesn't let a message's links or its pin through that aren't older. -/
def hides (g h : Group) : Bool := h.rank != 0 && !g.cursor.past h.createdAt h.id

end Group

def hidden (last : Option Group) (h : Group) : Bool := last.any fun g => g.hides h

section Walk
variable {c : Collection} {q : Query} {g h : Group} {gs hs ahead done : List Group}
  {last : Option Group}
  {fuel : ℕ}

theorem past_iff {cursor : Cursor} {createdAt : ℤ} {id : ℕ} : cursor.past createdAt id = true ↔
    createdAt < cursor.createdAt ∨ createdAt = cursor.createdAt ∧ id < cursor.id := by
  simp [Cursor.past]

theorem hides_iff : g.hides h = true ↔
    h.rank ≠ 0 ∧ (g.createdAt < h.createdAt ∨ g.createdAt = h.createdAt ∧ g.id ≤ h.id) := by
  rw [Group.hides, Bool.and_eq_true, bne_iff_ne, Bool.not_eq_true', ← Bool.not_eq_true, past_iff]
  simp only [Group.cursor]
  omega

theorem starred_rank (h : g.starred = true) : g.rank = 0 := by
  cases g with
  | upload a m => rfl
  | links m ls => cases h
  | pin m => cases h

theorem through_upload {a : Attachment} {m : Message} {cursor : Cursor} {pastStarred : Bool} :
    through pastStarred (some cursor) (.upload a m) = Collection.ahead pastStarred cursor a := rfl

theorem through_message (h0 : h.rank ≠ 0) {cursor : Cursor} {pastStarred : Bool} :
    through pastStarred (some cursor) h = cursor.past h.createdAt h.id := by
  cases h with
  | upload a m => exact absurd rfl h0
  | links m ls => rfl
  | pin m => rfl

/-- Of what comes after the group the cursor is at, it lets through all but what it hides. -/
theorem through_after (hgh : g.Before h) : through (!g.starred) (some g.cursor) h = !g.hides h := by
  by_cases h0 : h.rank = 0
  · obtain ⟨a, m, rfl⟩ : ∃ a m, h = .upload a m := by
      cases h with
      | upload a m => exact ⟨a, m, rfl⟩
      | links m ls => cases h0
      | pin m => cases h0
    have hhides : g.hides (.upload a m) = false := rfl
    rw [hhides, through_upload, Collection.ahead]
    rcases Group.before_iff.mp hgh with ⟨hg, ha⟩ | ⟨hs, hle⟩
    · have hnone : a.starredAt = none := by simpa [Group.starred] using ha
      rw [hg, hnone]
      simp
    · have hpast : g.cursor.past a.createdAt a.id = true := by
        rw [past_iff]
        change a.createdAt < g.createdAt ∨ a.createdAt = g.createdAt ∧ a.id < g.id
        change a.createdAt < g.createdAt ∨ g.createdAt = a.createdAt ∧
          (a.id < g.id ∨ g.id = a.id ∧ g.rank < 0) at hle
        omega
      have hs : g.starred = a.starredAt.isSome := hs
      rw [hs, hpast]
      cases a.starredAt <;> rfl
  · have hrank : (h.rank != 0) = true := by simpa using h0
    rw [through_message h0, Group.hides, hrank, Bool.true_and, Bool.not_not]

/-- And nothing of what comes before it, nor itself. -/
theorem not_through (hgh : h = g ∨ h.Before g) :
    through (!g.starred) (some g.cursor) h = false := by
  have hpast : g.starred = h.starred → g.cursor.past h.createdAt h.id = false := by
    intro hs
    rw [← Bool.not_eq_true, past_iff]
    change ¬ (h.createdAt < g.createdAt ∨ h.createdAt = g.createdAt ∧ h.id < g.id)
    rcases hgh with rfl | hgh
    · omega
    · rcases Group.before_iff.mp hgh with ⟨hh, hg⟩ | ⟨-, hle⟩
      · rw [hs, hh] at hg
        cases hg
      · omega
  have hstar : h.starred = false → g.starred = false := by
    rcases hgh with rfl | hgh
    · exact id
    · rcases Group.before_iff.mp hgh with ⟨hh, hg⟩ | ⟨hs, -⟩
      · exact fun _ => hg
      · exact fun hh => hs.symm.trans hh
  cases h with
  | upload a m =>
    have hstarred : (Group.upload a m).starred = a.starredAt.isSome := rfl
    rw [hstarred] at hpast hstar
    rw [through_upload, Collection.ahead]
    cases hg : g.starred <;> cases ha : a.starredAt
    · have hpast : g.cursor.past a.createdAt a.id = false := hpast (by rw [hg, ha]; rfl)
      rw [hpast]
      rfl
    · rfl
    · rw [hstar (by rw [ha]; rfl)] at hg
      cases hg
    · have hpast : g.cursor.past a.createdAt a.id = false := hpast (by rw [hg, ha]; rfl)
      rw [hpast]
      rfl
  | links m ls => exact hpast ((hstar rfl).trans rfl)
  | pin m => exact hpast ((hstar rfl).trans rfl)

/-- What is left to come when a walk stands at `last`. -/
def Stands (c : Collection) (q : Query) (last : Option Group) (ahead : List Group) : Prop :=
  match last with
  | none => listing c q = ahead
  | some g => ∃ done, listing c q = done ++ g :: ahead

def pastStarred (last : Option Group) : Bool := (last.map fun g => !g.starred).getD false

def pageOf (c : Collection) (q : Query) (last : Option Group) : List Group :=
  pageGroups c q (pastStarred last) (last.map Group.cursor)

theorem Stands.sub (hstands : Stands c q last ahead) (hg : g ∈ ahead) : g ∈ listing c q := by
  cases last with
  | none =>
    rw [show listing c q = ahead from hstands]
    exact hg
  | some g' =>
    obtain ⟨done, hdone⟩ := hstands
    rw [hdone]
    exact List.mem_append_right _ (.tail _ hg)

theorem Stands.before (hstands : Stands c q (some g) ahead) (hh : h ∈ ahead) : g.Before h := by
  obtain ⟨done, hdone⟩ := hstands
  have hsorted := listing_pairwise (c := c) (q := q)
  rw [hdone] at hsorted
  exact (List.pairwise_cons.mp (List.pairwise_append.mp hsorted).2.1).1 h hh

theorem Stands.pairwise (hstands : Stands c q last ahead) : ahead.Pairwise Group.Before := by
  have hsorted := listing_pairwise (c := c) (q := q)
  cases last with
  | none => exact (show listing c q = ahead from hstands) ▸ hsorted
  | some g =>
    obtain ⟨done, hdone⟩ := hstands
    rw [hdone] at hsorted
    exact (List.pairwise_cons.mp (List.pairwise_append.mp hsorted).2.1).2

theorem Stands.after (hstands : Stands c q last (gs ++ g :: ahead)) :
    Stands c q (some g) ahead := by
  cases last with
  | none => exact ⟨gs, hstands⟩
  | some g' =>
    obtain ⟨done, hdone⟩ := hstands
    exact ⟨done ++ g' :: gs, by rw [hdone]; simp⟩

/-- A page from `last` on is the first of what is left that isn't hidden. -/
theorem Stands.page (hstands : Stands c q last ahead) : pageOf c q last =
    KeysetPages.page Group.weight q.limit 0 (ahead.filter fun h => !hidden last h) := by
  refine congrArg (KeysetPages.page Group.weight q.limit 0) ?_
  cases last with
  | none =>
    rw [rest, show listing c q = ahead from hstands]
    refine List.filter_congr fun h hh => ?_
    cases h <;> rfl
  | some g =>
    have hsorted := listing_pairwise (c := c) (q := q)
    have hbefore {h : Group} (hh : h ∈ ahead) : g.Before h := hstands.before hh
    obtain ⟨done, hdone⟩ := hstands
    rw [hdone] at hsorted
    have hnone : done.filter (through (!g.starred) (some g.cursor)) = [] := by
      rw [List.filter_eq_nil_iff]
      intro h hh
      rw [not_through (.inr ((List.pairwise_append.mp hsorted).2.2 h hh g (.head _)))]
      exact Bool.false_ne_true
    calc rest c q (!g.starred) (some g.cursor)
        = done.filter (through (!g.starred) (some g.cursor)) ++
          (g :: ahead).filter (through (!g.starred) (some g.cursor)) := by
          rw [rest, hdone, List.filter_append]
      _ = ahead.filter (through (!g.starred) (some g.cursor)) := by
          rw [hnone, List.nil_append,
            List.filter_cons_of_neg (by rw [not_through (.inl rfl)]; exact Bool.false_ne_true)]
      _ = ahead.filter fun h => !g.hides h :=
        List.filter_congr fun h hh => through_after (hbefore hh)

/-- The item a cursor points at, when it is a group's last, is starred if the group is. -/
theorem isStarred_cursor (hg : g ∈ listing c q) : c.isStarred g.cursor = g.starred := by
  have hmessage (m : Message) (hm : m ∈ c.messages) (createdAt : ℤ) :
      c.isStarred ⟨createdAt, m.id⟩ = false := by
    have hnone : c.attachments.find? (fun a => a.id == m.id) = none := by
      rw [List.find?_eq_none]
      intro a ha
      simpa using c.apart a ha m hm
    simp [Collection.isStarred, hnone]
  rcases mem_shown.mp (mem_listing.mp hg) with
    ⟨-, a, ha, hrow⟩ | ⟨-, m, hm, -, rfl⟩ | ⟨-, m, hm, -, rfl⟩
  · obtain ⟨m, -, rfl, -⟩ := uploadRow_some hrow
    have hfind : c.attachments.find? (fun b => b.id == a.id) = some a := by
      obtain ⟨before, after, hsplit⟩ := List.append_of_mem ha
      have hids := c.attachmentIds
      rw [hsplit] at hids ⊢
      rw [List.find?_append, List.find?_eq_none.mpr, List.find?_cons_of_pos]
      · rfl
      · simp
      · intro b hb
        simpa using (List.pairwise_append.mp hids).2.2 b hb a (.head _)
    simp [Collection.isStarred, Group.cursor, Group.id, hfind, Group.starred]
  · exact hmessage m hm _
  · exact hmessage m hm _

theorem items_ne_nil (hg : g ∈ listing c q) : g.items ≠ [] :=
  List.ne_nil_of_length_pos (weight_pos hg)

/-- A message's links and its pin have its id, an upload never has. -/
theorem id_ne (hg : g ∈ listing c q) (hh : h ∈ listing c q) (h0 : g.rank = 0) (h1 : h.rank ≠ 0) :
    g.id ≠ h.id := by
  obtain ⟨a, ha, hga⟩ : ∃ a ∈ c.attachments, g.id = a.id := by
    rcases mem_shown.mp (mem_listing.mp hg) with
      ⟨-, a, ha, hrow⟩ | ⟨-, m, -, -, rfl⟩ | ⟨-, m, -, -, rfl⟩
    · obtain ⟨m, -, rfl, -⟩ := uploadRow_some hrow
      exact ⟨a, ha, rfl⟩
    · cases h0
    · cases h0
  obtain ⟨m, hm, hhm⟩ : ∃ m ∈ c.messages, h.id = m.id := by
    rcases mem_shown.mp (mem_listing.mp hh) with
      ⟨-, a, -, hrow⟩ | ⟨-, m, hm, -, rfl⟩ | ⟨-, m, hm, -, rfl⟩
    · obtain ⟨m, -, rfl, -⟩ := uploadRow_some hrow
      exact absurd rfl h1
    · exact ⟨m, hm, rfl⟩
    · exact ⟨m, hm, rfl⟩
  rw [hga, hhm]
  exact c.apart a ha m hm

theorem same_group (hg : g ∈ listing c q) (hh : h ∈ listing c q) (hid : g.id = h.id)
    (hrank : g.rank = h.rank) : g = h := by
  by_contra hne
  have hpair : (shown c q).Pairwise fun g h => g.id = h.id → g.rank ≠ h.rank :=
    shown_pairwise.imp fun hlt hid => (hlt hid).ne
  have : Std.Symm fun g h : Group => g.id = h.id → g.rank ≠ h.rank :=
    ⟨fun g h hgh hid => (hgh hid.symm).symm⟩
  exact hpair.forall (mem_listing.mp hg) (mem_listing.mp hh) hne hid hrank

def Item.rank : Item → ℕ
  | .upload .. => 0
  | .link .. => 1
  | .pin _ => 2

theorem mem_items {x : Item} (hx : x ∈ g.items) : x.cursor = g.cursor ∧ x.rank = g.rank := by
  cases g with
  | upload a m =>
    obtain rfl := List.mem_singleton.mp hx
    exact ⟨rfl, rfl⟩
  | links m ls =>
    obtain ⟨l, -, rfl⟩ := List.mem_map.mp hx
    exact ⟨rfl, rfl⟩
  | pin m =>
    obtain rfl := List.mem_singleton.mp hx
    exact ⟨rfl, rfl⟩

/-- An item says which group it is in. -/
theorem items_group (hg : g ∈ listing c q) (hh : h ∈ listing c q) {x : Item} (hxg : x ∈ g.items)
    (hxh : x ∈ h.items) : g = h := by
  obtain ⟨hcursor, hrank⟩ := mem_items hxg
  obtain ⟨hcursor', hrank'⟩ := mem_items hxh
  have hid : g.id = h.id := congrArg Cursor.id (hcursor.symm.trans hcursor')
  exact same_group hg hh hid (hrank.symm.trans hrank')

theorem items_injective (hgs : ∀ g ∈ gs, g ∈ listing c q) (hhs : ∀ h ∈ hs, h ∈ listing c q)
    (heq : gs.flatMap Group.items = hs.flatMap Group.items) : gs = hs := by
  induction gs generalizing hs with
  | nil =>
    cases hs with
    | nil => rfl
    | cons h hs =>
      obtain ⟨x, xs, hx⟩ := List.exists_cons_of_ne_nil (items_ne_nil (hhs h (.head _)))
      rw [List.flatMap_nil, List.flatMap_cons, hx] at heq
      cases heq
  | cons g gs ih =>
    obtain ⟨x, xs, hx⟩ := List.exists_cons_of_ne_nil (items_ne_nil (hgs g (.head _)))
    cases hs with
    | nil =>
      rw [List.flatMap_nil, List.flatMap_cons, hx] at heq
      cases heq
    | cons h hs =>
      obtain ⟨y, ys, hy⟩ := List.exists_cons_of_ne_nil (items_ne_nil (hhs h (.head _)))
      have hxy : x = y := by
        rw [List.flatMap_cons, List.flatMap_cons, hx, hy] at heq
        exact (List.cons_eq_cons.mp heq).1
      have hgh : g = h := by
        apply items_group (hgs g (.head _)) (hhs h (.head _)) (x := x)
        · rw [hx]
          exact .head _
        · rw [hy, hxy]
          exact .head _
      subst hgh
      rw [List.flatMap_cons, List.flatMap_cons, List.append_cancel_left_eq] at heq
      exact congrArg (g :: ·)
        (ih (fun g hg => hgs g (.tail _ hg)) (fun h hh => hhs h (.tail _ hh)) heq)

def walkGroups (c : Collection) (q : Query) : ℕ → Option Group → Option (List Group)
  | 0, _ => none
  | fuel + 1, last =>
    match (pageOf c q last).getLast? with
    | none => some []
    | some g => (walkGroups c q fuel (some g)).map fun gs => pageOf c q last ++ gs

theorem pageOf_sub (hg : g ∈ pageOf c q last) : g ∈ listing c q :=
  List.mem_of_mem_filter (List.IsPrefix.subset page_prefix hg)

/-- The walk over items is the walk over groups. -/
theorem walk_eq (hlast : ∀ g ∈ last, g ∈ listing c q) :
    walk c q fuel (last.map Group.cursor) =
      (walkGroups c q fuel last).map (List.flatMap Group.items) := by
  induction fuel generalizing last with
  | zero => rfl
  | succ fuel ih =>
    have hpage : page c { q with before := last.map Group.cursor } =
        (pageOf c q last).flatMap Group.items := by
      apply page_eq
      cases last with
      | none => rfl
      | some g =>
        rw [Option.map_some, Option.map_some, isStarred_cursor (hlast g rfl)]
        rfl
    rw [walk, walkGroups, hpage]
    cases hgroup : (pageOf c q last).getLast? with
    | none =>
      rw [List.getLast?_eq_none_iff.mp hgroup]
      rfl
    | some g =>
      obtain ⟨before, hbefore⟩ := List.getLast?_eq_some_iff.mp hgroup
      have hmem : g ∈ pageOf c q last := by
        rw [hbefore]
        exact List.mem_append_right _ (.head _)
      have hg : g ∈ listing c q := pageOf_sub hmem
      obtain ⟨x, hx⟩ := Option.isSome_iff_exists.mp (List.getLast?_isSome.mpr (items_ne_nil hg))
      have hitem : ((pageOf c q last).flatMap Group.items).getLast? = some x := by
        rw [hbefore, List.flatMap_append, List.flatMap_singleton, List.getLast?_append, hx]
        rfl
      have hcursor : x.cursor = g.cursor := (mem_items (List.mem_of_getLast? hx)).1
      have hih := @ih (some g) fun g' hg' => Option.mem_some.mp hg' ▸ hg
      rw [Option.map_some] at hih
      simp only [hitem, hcursor, hih, Option.map_map]
      refine congrArg (Option.map · (walkGroups c q fuel (some g))) (funext fun gs => ?_)
      rw [Function.comp_apply, Function.comp_apply, List.flatMap_append]

theorem walkGroups_sub {out : List Group} (hout : walkGroups c q fuel last = some out)
    (hg : g ∈ out) :
    g ∈ listing c q := by
  induction fuel generalizing last out with
  | zero => cases hout
  | succ fuel ih =>
    rw [walkGroups] at hout
    split at hout
    · cases hout
      cases hg
    · next g' hlast =>
      obtain ⟨gs, hgs, rfl⟩ := Option.map_eq_some_iff.mp hout
      rcases List.mem_append.mp hg with hg | hg
      · exact pageOf_sub hg
      · exact ih hgs hg

/-- A page is never the same as before, and a walk gets to the end. -/
theorem walkGroups_ends (hstands : Stands c q last ahead)
    (hfuel : ahead.length < fuel) : ∃ out, walkGroups c q fuel last = some out := by
  induction fuel generalizing last ahead with
  | zero => omega
  | succ fuel ih =>
    rw [walkGroups]
    cases hgroup : (pageOf c q last).getLast? with
    | none => exact ⟨[], rfl⟩
    | some g =>
      have hg : g ∈ ahead := by
        have hmem := List.mem_of_getLast? hgroup
        rw [hstands.page] at hmem
        exact List.mem_of_mem_filter (List.IsPrefix.subset page_prefix hmem)
      obtain ⟨before, after, rfl⟩ := List.append_of_mem hg
      have hafter : after.length < fuel := by
        rw [List.length_append, List.length_cons] at hfuel
        omega
      obtain ⟨out, hout⟩ := ih hstands.after hafter
      exact ⟨_, congrArg (Option.map _) hout⟩

theorem walkGroups_mono {fuel' : ℕ} {out : List Group} (hout : walkGroups c q fuel last = some out)
    (hle : fuel ≤ fuel') : walkGroups c q fuel' last = some out := by
  induction fuel generalizing last out fuel' with
  | zero => cases hout
  | succ fuel ih =>
    obtain ⟨fuel', rfl⟩ : ∃ n, fuel' = n + 1 := ⟨fuel' - 1, by omega⟩
    rw [walkGroups] at hout ⊢
    split at hout
    · exact hout
    · obtain ⟨gs, hgs, rfl⟩ := Option.map_eq_some_iff.mp hout
      exact congrArg (Option.map _) (ih hgs (by omega))

end Walk
end Linger.Media
