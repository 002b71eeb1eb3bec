import Mathlib.Data.List.TakeWhile
import Linger.MediaWalk

/-! When reading page by page reads everything: no page may end where its cursor hides something
that is still to come. -/
namespace Linger.Media
open KeysetPages

/-- No page of these ends between a message's links and its pin. -/
def Together (limit : ℕ) (gs : List Group) : Prop :=
  ∀ e ∈ ends Group.weight limit 0 gs, ∀ h ∈ e.2.head?, e.1.hides h = false

/-- The starred uploads that fill pages of their own. -/
def filled (limit : ℕ) (starred : List Group) : List Group :=
  starred.take (starred.length / limit * limit)

def unfilled (limit : ℕ) (starred : List Group) : List Group :=
  starred.drop (starred.length / limit * limit)

/-- From a page's end at `last`: the starred uploads left after it don't fill a page, the uploads
among the rest that come first are followed by links or a pin. -/
def Resumes (limit : ℕ) (last : Option Group) (starred uploads others : List Group) : Prop :=
  if others.head?.any (hidden last) ∧ starred.length + uploads.length < limit then
    uploads ≠ [] ∧ (∀ h ∈ others, hidden last h = true) ∧ Together limit others
  else Together limit (starred ++ uploads ++ others)

/-- When every page goes on where the one before it ended. -/
def Unbroken (limit : ℕ) (all : List Group) : Prop :=
  let starred := all.takeWhile Group.starred
  let unstarred := all.dropWhile Group.starred
  Resumes limit (filled limit starred).getLast? (unfilled limit starred)
    (unstarred.takeWhile fun g => g.rank == 0) (unstarred.dropWhile fun g => g.rank == 0)

section Reads
variable {c : Collection} {q : Query} {g h : Group} {gs hs ahead out : List Group}
  {last : Option Group}

/-- A walk from `last` on reads `out`. -/
def Reads (c : Collection) (q : Query) (last : Option Group) (out : List Group) : Prop :=
  ∃ fuel, walkGroups c q fuel last = some out

theorem reads_nil (hpage : pageOf c q last = []) : Reads c q last out ↔ out = [] := by
  constructor
  · rintro ⟨fuel, hout⟩
    cases fuel with
    | zero => cases hout
    | succ fuel =>
      rw [walkGroups, hpage] at hout
      exact (Option.some.inj hout).symm
  · rintro rfl
    exact ⟨1, by rw [walkGroups, hpage]; rfl⟩

theorem reads_page (hpage : pageOf c q last = gs ++ [g]) :
    Reads c q last out ↔ ∃ tail, out = gs ++ g :: tail ∧ Reads c q (some g) tail := by
  have hlast : (pageOf c q last).getLast? = some g := by rw [hpage, List.getLast?_concat]
  have hwalk (fuel : ℕ) : walkGroups c q (fuel + 1) last =
      (walkGroups c q fuel (some g)).map fun tail => gs ++ g :: tail := by
    rw [walkGroups]
    simp only [hlast]
    refine congrArg (Option.map · _) (funext fun tail => ?_)
    rw [hpage, List.append_assoc, List.singleton_append]
  constructor
  · rintro ⟨fuel, hout⟩
    cases fuel with
    | zero => cases hout
    | succ fuel =>
      rw [hwalk] at hout
      obtain ⟨tail, htail, rfl⟩ := Option.map_eq_some_iff.mp hout
      exact ⟨tail, rfl, fuel, htail⟩
  · rintro ⟨tail, rfl, fuel, htail⟩
    exact ⟨fuel + 1, by rw [hwalk, htail]; rfl⟩

/-- What holds at every page's end holds at the first one and at those after it. -/
theorem together_iff {limit : ℕ} : Together limit gs ↔ ∀ e ∈ (ends Group.weight limit 0 gs).head?,
    (∀ h ∈ e.2.head?, e.1.hides h = false) ∧ Together limit e.2 := by
  rw [Together]
  cases hends : ends Group.weight limit 0 gs with
  | nil => simp
  | cons e es =>
    rw [ends_cons hends, List.forall_mem_cons, List.head?_cons]
    constructor
    · rintro h e' he'
      cases he'
      exact h
    · exact fun h => h e rfl

theorem filter_of_open (hopen : ∀ h ∈ ahead, hidden last h = false) :
    ahead.filter (fun h => !hidden last h) = ahead := by
  rw [List.filter_eq_self]
  intro h hh
  rw [hopen h hh]
  rfl

/-- Where a page isn't full, it is the last. -/
theorem reads_all (hstands : Stands c q last ahead) (hpage : pageOf c q last = ahead) :
    Reads c q last ahead := by
  rcases List.eq_nil_or_concat ahead with rfl | ⟨gs, g, rfl⟩
  · exact (reads_nil hpage).mpr rfl
  · rw [List.concat_eq_append] at hpage hstands ⊢
    have hafter : Stands c q (some g) [] := hstands.after
    have hnone : pageOf c q (some g) = [] := hafter.page
    exact (reads_page hpage).mpr ⟨[], rfl, (reads_nil hnone).mpr rfl⟩

/-- Where a cursor hides nothing, its page is the first of what is left. -/
theorem reads_of_open (hlimit : 0 < q.limit) (hstands : Stands c q last ahead)
    (hopen : ∀ h ∈ ahead, hidden last h = false) : Reads c q last ahead ↔
      ∀ e ∈ (ends Group.weight q.limit 0 ahead).head?, Reads c q (some e.1) e.2 := by
  have hpage := hstands.page
  rw [filter_of_open hopen] at hpage
  rcases @page_cases _ Group.weight q.limit 0 ahead hlimit with
    ⟨hall, -, hends⟩ | ⟨ts, x, rest, rfl, hts⟩
  · rw [hall] at hpage
    rw [hends]
    exact ⟨fun _ e he => by (cases he), fun _ => reads_all hstands hpage⟩
  · obtain ⟨hfull, hends, -⟩ := hts rest
    rw [hfull] at hpage
    rw [hends, List.head?_cons, reads_page hpage]
    constructor
    · rintro ⟨tail, heq, hreads⟩ e he
      cases he
      rw [List.append_cancel_left_eq, List.cons_eq_cons] at heq
      obtain ⟨-, rfl⟩ := heq
      exact hreads
    · exact fun h => ⟨rest, rfl, h _ rfl⟩

/-- What is read begins with the page. -/
theorem Reads.page (hreads : Reads c q last out) : ∃ tail, out = pageOf c q last ++ tail := by
  rcases List.eq_nil_or_concat (pageOf c q last) with hnil | ⟨gs, g, hpage⟩
  · exact ⟨out, by rw [hnil]; rfl⟩
  · rw [List.concat_eq_append] at hpage
    obtain ⟨tail, hout, -⟩ := (reads_page hpage).mp hreads
    exact ⟨tail, by rw [hout, hpage]; simp⟩

/-- What is hidden at the head of what is left is never read. -/
theorem Reads.head (hstands : Stands c q last (h :: ahead)) (hreads : Reads c q last (h :: ahead)) :
    hidden last h = false := by
  obtain ⟨tail, heq⟩ := hreads.page
  cases hpage : pageOf c q last with
  | nil => cases (reads_nil hpage).mp hreads
  | cons x xs =>
    rw [hpage, List.cons_append, List.cons_eq_cons] at heq
    have hx : x ∈ pageOf c q last := by
      rw [hpage]
      exact .head _
    rw [hstands.page] at hx
    rw [heq.1]
    simpa using (List.mem_filter.mp (List.IsPrefix.subset page_prefix hx)).2

theorem before_unstarred (hgh : g.Before h) (hstar : g.starred = false) : h.starred = false ∧
    (h.createdAt < g.createdAt ∨ g.createdAt = h.createdAt ∧
      (h.id < g.id ∨ g.id = h.id ∧ g.rank < h.rank)) := by
  rcases Group.before_iff.mp hgh with ⟨hg, -⟩ | ⟨hs, hlate⟩
  · rw [hstar] at hg
    cases hg
  · exact ⟨hs.symm.trans hstar, hlate⟩

/-- An unstarred group hides the rest of its own message at most, which is what comes next. -/
theorem hides_next (hstands : Stands c q (some g) (h :: ahead)) (hstar : g.starred = false)
    (hh : g.hides h = false) : ∀ h' ∈ h :: ahead, hidden (some g) h' = false := by
  obtain ⟨hhstar, hgh⟩ := before_unstarred (hstands.before (.head _)) hstar
  rw [← Bool.not_eq_true, hides_iff] at hh
  intro h' hh'
  change g.hides h' = false
  rw [← Bool.not_eq_true, hides_iff]
  rcases List.mem_cons.mp hh' with rfl | hh'
  · exact hh
  · obtain ⟨-, hhh⟩ := before_unstarred ((List.pairwise_cons.mp hstands.pairwise).1 h' hh') hhstar
    omega

/-- From an unstarred page's end on, all is read as long as pages don't end within a message. -/
theorem reads_unstarred (hlimit : 0 < q.limit) (hstands : Stands c q (some g) ahead)
    (hstar : g.starred = false) : Reads c q (some g) ahead ↔
      (∀ h ∈ ahead.head?, g.hides h = false) ∧ Together q.limit ahead := by
  induction hlen : ahead.length using Nat.strong_induction_on generalizing g ahead with
  | _ n ih =>
  subst hlen
  have hopen (hhead : ∀ h ∈ ahead.head?, g.hides h = false) :
      ∀ h ∈ ahead, hidden (some g) h = false := by
    cases ahead with
    | nil => exact fun h hh => by cases hh
    | cons h ahead => exact hides_next hstands hstar (hhead h rfl)
  have hhead (hreads : Reads c q (some g) ahead) : ∀ h ∈ ahead.head?, g.hides h = false := by
    intro h hh
    cases ahead with
    | nil => cases hh
    | cons h' ahead =>
      cases hh
      exact hreads.head hstands
  -- the page's end is further on, and as unstarred as what comes before it
  have hnext (e : Group × List Group) (he : e ∈ (ends Group.weight q.limit 0 ahead).head?) :
      Reads c q (some e.1) e.2 ↔ (∀ h ∈ e.2.head?, e.1.hides h = false) ∧ Together q.limit e.2 := by
    obtain ⟨ts, rfl⟩ := ends_split (List.mem_of_mem_head? he)
    have hx : e.1.starred = false := (before_unstarred (hstands.before (by simp)) hstar).1
    exact ih _ (by simp; omega) hstands.after hx rfl
  rw [together_iff]
  constructor
  · intro hreads
    refine ⟨hhead hreads, fun e he => (hnext e he).mp ?_⟩
    exact (reads_of_open hlimit hstands (hopen (hhead hreads))).mp hreads e he
  · intro ⟨hfirst, hends⟩
    exact (reads_of_open hlimit hstands (hopen hfirst)).mpr fun e he =>
      (hnext e he).mpr (hends e he)

/-- Nothing hidden, the first page's end unstarred: all is read as long as pages don't end within
a message. -/
theorem reads_together (hlimit : 0 < q.limit) (hstands : Stands c q last ahead)
    (hopen : ∀ h ∈ ahead, hidden last h = false)
    (hends : ∀ e ∈ (ends Group.weight q.limit 0 ahead).head?, e.1.starred = false) :
    Reads c q last ahead ↔ Together q.limit ahead := by
  rw [reads_of_open hlimit hstands hopen, together_iff]
  refine forall_congr' fun e => forall_congr' fun he => ?_
  obtain ⟨ts, rfl⟩ := ends_split (List.mem_of_mem_head? he)
  exact reads_unstarred hlimit hstands.after (hends e he)

end Reads

section Starred
variable {c : Collection} {q : Query} {g h : Group} {starred uploads others ahead : List Group}
  {last : Option Group}

/-- How what is left is made up: starred uploads, unstarred ones, then links or a pin and whatever
comes after. -/
structure Split (last : Option Group) (starred uploads others : List Group) : Prop where
  at_starred : ∀ g ∈ last, g.starred = true
  all_starred : ∀ g ∈ starred, g.starred = true
  all_uploads : ∀ g ∈ uploads, g.starred = false ∧ g.rank = 0
  none_starred : ∀ g ∈ others, g.starred = false
  first : ∀ g ∈ others.head?, g.rank ≠ 0

theorem weight_upload (h0 : g.rank = 0) : g.weight = 1 := by
  cases g with
  | upload a m => rfl
  | links m ls => cases h0
  | pin m => cases h0

theorem sum_uploads {gs : List Group} (hgs : ∀ g ∈ gs, g.rank = 0) :
    (gs.map Group.weight).sum = gs.length := by
  induction gs with
  | nil => rfl
  | cons g gs ih =>
    rw [List.map_cons, List.sum_cons, ih fun g hg => hgs g (.tail _ hg),
      weight_upload (hgs g (.head _)), List.length_cons]
    omega

theorem hidden_rank (h0 : h.rank = 0) : hidden last h = false := by
  cases last with
  | none => rfl
  | some g =>
    change g.hides h = false
    rw [← Bool.not_eq_true, hides_iff]
    exact fun hh => hh.1 h0

/-- An unstarred upload hides nothing that comes after it. -/
theorem upload_hides (hstands : Stands c q (some g) ahead) (hg : g ∈ listing c q)
    (hstar : g.starred = false)
    (h0 : g.rank = 0) (hh : h ∈ ahead) : g.hides h = false := by
  rw [← Bool.not_eq_true, hides_iff]
  intro ⟨hrank, hle⟩
  have hne := id_ne hg (hstands.sub hh) h0 hrank
  obtain ⟨-, hlate⟩ := before_unstarred (hstands.before hh) hstar
  omega

/-- What is hidden stays hidden from a later starred upload. -/
theorem hides_later {x : Group} (hgx : g.Before x) (hx : x.starred = true) (hh : g.hides h = true) :
    x.hides h = true := by
  rw [hides_iff] at hh ⊢
  rcases Group.before_iff.mp hgx with ⟨-, hx'⟩ | ⟨-, hlate⟩
  · rw [hx] at hx'
    cases hx'
  · have hx0 := starred_rank hx
    omega

/-- What a cursor lets through it lets through with all that comes after it. -/
theorem open_after (hothers : others.Pairwise Group.Before)
    (hstar : ∀ g ∈ others, g.starred = false)
    (hfirst : ∀ h ∈ others.head?, h.rank ≠ 0 ∧ hidden last h = false) :
    ∀ h ∈ others, hidden last h = false := by
  cases others with
  | nil => exact fun h hh => by cases hh
  | cons o others =>
    obtain ⟨ho0, ho⟩ := hfirst o rfl
    cases last with
    | none => exact fun h _ => rfl
    | some g =>
      change g.hides o = false at ho
      intro h hh
      change g.hides h = false
      rcases List.mem_cons.mp hh with rfl | hh
      · exact ho
      · obtain ⟨-, hlate⟩ :=
          before_unstarred ((List.pairwise_cons.mp hothers).1 h hh) (hstar o (.head _))
        rw [← Bool.not_eq_true, hides_iff] at ho ⊢
        omega

namespace Split

theorem ranks (hsplit : Split last starred uploads others) :
    ∀ g ∈ starred ++ uploads, g.rank = 0 := by
  intro g hg
  rcases List.mem_append.mp hg with hg | hg
  · exact starred_rank (hsplit.all_starred g hg)
  · exact (hsplit.all_uploads g hg).2

theorem sum (hsplit : Split last starred uploads others) :
    ((starred ++ uploads).map Group.weight).sum = starred.length + uploads.length := by
  rw [sum_uploads hsplit.ranks, List.length_append]

/-- A page that reaches past the starred uploads doesn't end on one. -/
theorem ends_unstarred (hsplit : Split last starred uploads others) {limit : ℕ}
    (hless : starred.length < limit)
    {gs rest : List Group} (heq : starred ++ uploads ++ others = gs ++ g :: rest)
    (hfull : limit ≤ ((gs ++ [g]).map Group.weight).sum) : g.starred = false := by
  rw [← Bool.not_eq_true]
  intro hg
  have hstart : gs ++ [g] <+: starred := by
    have hall : gs ++ [g] <+: starred ++ (uploads ++ others) :=
      ⟨rest, by rw [← List.append_assoc, heq]; simp⟩
    rcases List.prefix_or_prefix_of_prefix hall (List.prefix_append _ _) with hstart | ⟨more, hmore⟩
    · exact hstart
    · rcases List.eq_nil_or_concat more with rfl | ⟨more, g', rfl⟩
      · have hsame : gs ++ [g] = starred := hmore.symm.trans (List.append_nil starred)
        exact hsame ▸ List.prefix_rfl
      · rw [List.concat_eq_append, ← List.append_assoc] at hmore
        obtain ⟨rfl, hg'⟩ := List.append_inj' hmore rfl
        cases hg'
        rw [List.append_assoc, List.prefix_append_right_inj] at hall
        rcases List.mem_append.mp (hall.subset (List.mem_append_right more (.head _))) with
          hmem | hmem
        · rw [(hsplit.all_uploads g hmem).1] at hg
          cases hg
        · rw [hsplit.none_starred g hmem] at hg
          cases hg
  have hlen := hstart.length_le
  have hsum : ((gs ++ [g]).map Group.weight).sum = (gs ++ [g]).length :=
    sum_uploads fun x hx => starred_rank (hsplit.all_starred x (hstart.subset hx))
  omega

/-- A cursor among the starred uploads hides none of the uploads. -/
theorem page (hsplit : Split last starred uploads others)
    (hstands : Stands c q last (starred ++ uploads ++ others)) : pageOf c q last =
      KeysetPages.page Group.weight q.limit 0 (starred ++ uploads ++ others.filter fun h =>
        !hidden last h) := by
  rw [hstands.page, List.filter_append, filter_of_open fun h hh => hidden_rank (hsplit.ranks h hh)]

/-- Where the page ends on an upload before the links and pins, the next cursor is that upload's. -/
theorem reads_full (hsplit : Split last starred uploads others) (hlimit : 0 < q.limit)
    (hstands : Stands c q last (starred ++ uploads ++ others)) (hless : starred.length < q.limit)
    (hfull : q.limit ≤ starred.length + uploads.length) :
    Reads c q last (starred ++ uploads ++ others) ↔
      Together q.limit (starred ++ uploads ++ others) := by
  have hpage := hsplit.page hstands
  have hsum := hsplit.sum
  rcases @page_cases _ Group.weight q.limit 0 (starred ++ uploads) hlimit with
    ⟨-, hlt, -⟩ | ⟨ts, x, rest, heq, hts⟩
  · omega
  · have hx : x.starred = false := by
      have hwhole : starred ++ uploads ++ others = ts ++ x :: (rest ++ others) := by
        rw [heq, List.append_assoc, List.cons_append]
      have hfull := (hts rest).2.2
      rw [Nat.zero_add] at hfull
      exact hsplit.ends_unstarred hless hwhole hfull
    rw [heq, List.append_assoc, List.cons_append] at hpage hstands ⊢
    rw [(hts _).1] at hpage
    rw [reads_page hpage, together_iff, (hts _).2.1]
    have hnext : Reads c q (some x) (rest ++ others) ↔ _ := reads_unstarred hlimit hstands.after hx
    constructor
    · rintro ⟨tail, hcancel, hreads⟩ e he
      rw [List.append_cancel_left_eq, List.cons_eq_cons] at hcancel
      obtain ⟨-, rfl⟩ := hcancel
      cases he
      exact hnext.mp hreads
    · exact fun h => ⟨_, rfl, hnext.mpr (h _ rfl)⟩

/-- Where it takes all the uploads and isn't full, the links and pins that are hidden are read only
after it, and only if an unstarred upload is its last. -/
theorem reads_short (hsplit : Split last starred uploads others) (hlimit : 0 < q.limit)
    (hstands : Stands c q last (starred ++ uploads ++ others))
    (hhides : others.head?.any (hidden last) = true)
    (hshort : starred.length + uploads.length < q.limit) :
    Reads c q last (starred ++ uploads ++ others) ↔
      uploads ≠ [] ∧ (∀ h ∈ others, hidden last h = true) ∧ Together q.limit others := by
  obtain ⟨o, others, rfl⟩ : ∃ o os, others = o :: os := by
    cases others with
    | nil => cases hhides
    | cons o os => exact ⟨o, os, rfl⟩
  have ho : hidden last o = true := hhides
  have hpage := hsplit.page hstands
  rw [page_append (by rw [hsplit.sum]; omega), hsplit.sum, Nat.zero_add] at hpage
  have hfirst (hnone : (o :: others).filter (fun h => !hidden last h) = []) :
      pageOf c q last = starred ++ uploads := by
    rw [hpage, hnone, KeysetPages.page, List.append_nil]
  constructor
  · intro hreads
    -- what isn't hidden would be read before the first one, which is
    have hnone : (o :: others).filter (fun h => !hidden last h) = [] := by
      obtain ⟨tail, heq⟩ := hreads.page
      cases hfilter : (o :: others).filter fun h => !hidden last h with
      | nil => rfl
      | cons y ys =>
        exfalso
        rw [hpage, hfilter, KeysetPages.page, if_neg (by omega),
          List.append_assoc (starred ++ uploads), List.append_cancel_left_eq, List.cons_append,
          List.cons_eq_cons] at heq
        have hy : y ∈ (o :: others).filter fun h => !hidden last h := by
          rw [hfilter]
          exact .head _
        have hyopen := (List.mem_filter.mp hy).2
        rw [← heq.1, ho] at hyopen
        cases hyopen
    have hall : ∀ h ∈ o :: others, hidden last h = true := by
      intro h hh
      simpa using List.filter_eq_nil_iff.mp hnone h hh
    have hpage := hfirst hnone
    rcases List.eq_nil_or_concat uploads with rfl | ⟨us, x, rfl⟩
    · exfalso
      rcases List.eq_nil_or_concat starred with rfl | ⟨ss, x, rfl⟩
      · cases (reads_nil hpage).mp hreads
      · simp only [List.append_nil, List.concat_eq_append, List.append_assoc, List.singleton_append]
          at hpage hreads hstands
        obtain ⟨tail, hcancel, hreads⟩ := (reads_page hpage).mp hreads
        rw [List.append_cancel_left_eq, List.cons_eq_cons] at hcancel
        obtain ⟨-, rfl⟩ := hcancel
        have hopen : x.hides o = false := hreads.head hstands.after
        obtain ⟨g, rfl, hg⟩ : ∃ g, last = some g ∧ g.hides o = true := by
          cases last with
          | none => cases ho
          | some g => exact ⟨g, rfl, ho⟩
        have hlater := hides_later (hstands.before (by simp)) (hsplit.all_starred x (by simp)) hg
        rw [hopen] at hlater
        cases hlater
    · rw [List.concat_eq_append, ← List.append_assoc] at hpage hreads hstands
      rw [List.append_assoc, List.singleton_append] at hreads hstands
      obtain ⟨tail, hcancel, hreads⟩ := (reads_page hpage).mp hreads
      rw [List.append_cancel_left_eq, List.cons_eq_cons] at hcancel
      obtain ⟨-, rfl⟩ := hcancel
      have hx : x.starred = false := (hsplit.all_uploads x (by simp)).1
      exact ⟨by simp, hall, ((reads_unstarred hlimit hstands.after hx).mp hreads).2⟩
  · rintro ⟨huploads, hall, htogether⟩
    have hpage := hfirst (List.filter_eq_nil_iff.mpr fun h hh => by simp [hall h hh])
    rcases List.eq_nil_or_concat uploads with rfl | ⟨us, x, rfl⟩
    · exact absurd rfl huploads
    · obtain ⟨hx, hx0⟩ := hsplit.all_uploads x (by simp)
      rw [List.concat_eq_append, ← List.append_assoc] at hpage hstands ⊢
      have hxmem : x ∈ listing c q := hstands.sub (by simp)
      rw [List.append_assoc, List.singleton_append] at hstands ⊢
      refine (reads_page hpage).mpr ⟨_, rfl,
        (reads_unstarred hlimit hstands.after hx).mpr ⟨?_, htogether⟩⟩
      intro h hh
      exact upload_hides hstands.after hxmem hx hx0 (List.mem_of_mem_head? hh)

theorem resumes (hsplit : Split last starred uploads others) (hlimit : 0 < q.limit)
    (hstands : Stands c q last (starred ++ uploads ++ others)) (hless : starred.length < q.limit) :
    Reads c q last (starred ++ uploads ++ others) ↔
      Resumes q.limit last starred uploads others := by
  rw [Resumes]
  split
  · next hcase => exact hsplit.reads_short hlimit hstands hcase.1 hcase.2
  · next hcase =>
    by_cases hfull : q.limit ≤ starred.length + uploads.length
    · exact hsplit.reads_full hlimit hstands hless hfull
    · have hhead : ¬ others.head?.any (hidden last) = true := fun hhides => hcase ⟨hhides, by omega⟩
      have hothers : others.Pairwise Group.Before := (List.pairwise_append.mp hstands.pairwise).2.1
      have hopen : ∀ h ∈ starred ++ uploads ++ others, hidden last h = false := by
        intro h hh
        rcases List.mem_append.mp hh with hh | hh
        · exact hidden_rank (hsplit.ranks h hh)
        · refine open_after hothers hsplit.none_starred (fun o ho => ⟨hsplit.first o ho, ?_⟩) h hh
          rw [Option.mem_def.mp ho, Option.any_some, Bool.not_eq_true] at hhead
          exact hhead
      apply reads_together hlimit hstands hopen
      intro e he
      rcases @page_cases _ Group.weight q.limit 0 (starred ++ uploads ++ others) hlimit with
        ⟨-, -, hends⟩ | ⟨ts, x, rest, heq, hts⟩
      · rw [hends] at he
        cases he
      · obtain ⟨-, hends, hsum⟩ := hts rest
        rw [heq, hends, List.head?_cons] at he
        cases he
        rw [Nat.zero_add] at hsum
        exact hsplit.ends_unstarred hless heq hsum

theorem filled_step {limit : ℕ} {gs : List Group} (hlimit : 0 < limit) (hlen : limit ≤ gs.length) :
    filled limit gs = gs.take limit ++ filled limit (gs.drop limit) ∧
      unfilled limit gs = unfilled limit (gs.drop limit) := by
  have hcount : gs.length / limit * limit = limit + (gs.drop limit).length / limit * limit := by
    have hdiv : gs.length / limit = (gs.length - limit) / limit + 1 := by
      rw [← Nat.add_div_right _ hlimit, Nat.sub_add_cancel hlen]
    rw [List.length_drop, hdiv, Nat.add_mul, Nat.one_mul, Nat.add_comm]
  constructor
  · rw [filled, filled, hcount, List.take_add]
  · rw [unfilled, unfilled, hcount, List.drop_drop]

/-- The starred uploads fill their pages one after another; what is left of them decides. -/
theorem reads (hsplit : Split last starred uploads others) (hlimit : 0 < q.limit)
    (hstands : Stands c q last (starred ++ uploads ++ others)) :
    Reads c q last (starred ++ uploads ++ others) ↔
      Resumes q.limit ((filled q.limit starred).getLast?.or last)
        (unfilled q.limit starred) uploads others := by
  induction hlen : starred.length using Nat.strong_induction_on generalizing last starred with
  | _ n ih =>
  subst hlen
  by_cases hless : starred.length < q.limit
  · have hnone : filled q.limit starred = [] := by
      rw [filled, Nat.div_eq_of_lt hless, Nat.zero_mul, List.take_zero]
    have hall : unfilled q.limit starred = starred := by
      rw [unfilled, Nat.div_eq_of_lt hless, Nat.zero_mul, List.drop_zero]
    rw [hnone, hall]
    exact hsplit.resumes hlimit hstands hless
  · have hle : q.limit ≤ starred.length := Nat.le_of_not_lt hless
    obtain ⟨hfilled, hunfilled⟩ := filled_step hlimit hle
    obtain ⟨ts, x, hts⟩ : ∃ ts x, starred.take q.limit = ts ++ [x] := by
      rcases List.eq_nil_or_concat (starred.take q.limit) with hnil | ⟨ts, x, hts⟩
      · have hlen := congrArg List.length hnil
        rw [List.length_take, List.length_nil] at hlen
        omega
      · exact ⟨ts, x, hts.trans (List.concat_eq_append ..)⟩
    have hstarred : starred = ts ++ x :: starred.drop q.limit := by
      conv_lhs => rw [← List.take_append_drop q.limit starred, hts]
      simp
    have hmem {g : Group} (hg : g ∈ starred.take q.limit) : g ∈ starred := List.mem_of_mem_take hg
    have hx : x ∈ starred := hmem (by rw [hts]; simp)
    have hpage : pageOf c q last = ts ++ [x] := by
      rw [hsplit.page hstands, ← List.take_append_drop q.limit starred, List.append_assoc,
        List.append_assoc, ← hts]
      apply page_exact
      · intro g hg
        rw [weight_upload (starred_rank (hsplit.all_starred g (hmem hg)))]
        exact Nat.one_pos
      · rw [sum_uploads fun g hg => starred_rank (hsplit.all_starred g (hmem hg)), List.length_take]
        omega
    have hahead :
        starred ++ uploads ++ others = ts ++ x :: (starred.drop q.limit ++ uploads ++ others) := by
      conv_lhs => rw [hstarred]
      simp
    have hafter : Stands c q (some x) (starred.drop q.limit ++ uploads ++ others) := by
      rw [hahead] at hstands
      exact hstands.after
    have hrest : Split (some x) (starred.drop q.limit) uploads others := by
      refine ⟨fun g hg => ?_, fun g hg => hsplit.all_starred g (List.mem_of_mem_drop hg),
        hsplit.all_uploads, hsplit.none_starred, hsplit.first⟩
      cases hg
      exact hsplit.all_starred x hx
    have hlast : (filled q.limit starred).getLast?.or last =
        (filled q.limit (starred.drop q.limit)).getLast?.or (some x) := by
      rw [hfilled, List.getLast?_append, hts, List.getLast?_concat]
      cases (filled q.limit (starred.drop q.limit)).getLast? <;> rfl
    rw [hlast, hunfilled, ← ih _ (by rw [List.length_drop]; omega) hrest hafter rfl, hahead,
      reads_page hpage]
    constructor
    · rintro ⟨tail, hcancel, hreads⟩
      rw [List.append_cancel_left_eq, List.cons_eq_cons] at hcancel
      rw [hcancel.2]
      exact hreads
    · exact fun hreads => ⟨_, rfl, hreads⟩

end Split

end Starred

section Whole
variable {c : Collection} {q : Query}

/-- The listing, split. -/
theorem listing_split : Split none ((listing c q).takeWhile Group.starred)
    (((listing c q).dropWhile Group.starred).takeWhile fun g => g.rank == 0)
    (((listing c q).dropWhile Group.starred).dropWhile fun g => g.rank == 0) := by
  have hunstarred : ∀ g ∈ (listing c q).dropWhile Group.starred, g.starred = false := by
    have hsorted :=
      (listing_pairwise (c := c) (q := q)).sublist (List.dropWhile_sublist Group.starred)
    have hhead := List.head?_dropWhile_not Group.starred (listing c q)
    intro g hg
    cases hdrop : (listing c q).dropWhile Group.starred with
    | nil =>
      rw [hdrop] at hg
      cases hg
    | cons x xs =>
      rw [hdrop] at hg hsorted hhead
      have hx : x.starred = false := hhead
      rcases List.mem_cons.mp hg with rfl | hg
      · exact hx
      · exact (before_unstarred ((List.pairwise_cons.mp hsorted).1 g hg) hx).1
  refine ⟨fun g hg => by (cases hg), fun g hg => List.mem_takeWhile_imp hg, fun g hg => ?_,
    fun g hg => ?_, ?_⟩
  · refine ⟨hunstarred g ((List.takeWhile_prefix _).subset hg), ?_⟩
    simpa using List.mem_takeWhile_imp hg
  · exact hunstarred g ((List.dropWhile_suffix _).subset hg)
  · intro g hg
    have hhead := List.head?_dropWhile_not (fun g : Group => g.rank == 0)
      ((listing c q).dropWhile Group.starred)
    rw [Option.mem_def.mp hg] at hhead
    simpa using hhead

instance (limit : ℕ) (gs : List Group) : Decidable (Together limit gs) :=
  inferInstanceAs
    (Decidable (∀ e ∈ ends Group.weight limit 0 gs, ∀ h ∈ e.2.head?, e.1.hides h = false))

instance (limit : ℕ) (last : Option Group) (starred uploads others : List Group) :
    Decidable (Resumes limit last starred uploads others) := by
  unfold Resumes
  infer_instance

instance (limit : ℕ) (all : List Group) : Decidable (Unbroken limit all) := by
  unfold Unbroken
  infer_instance

/-- Reading page by page ends, and has read every item that matches, once and in order, when and
only when no page ended where its cursor hides something still to come. -/
theorem pages_read_all (c : Collection) (q : Query) (hlimit : 0 < q.limit) :
    (∃ items, ∀ fuel, (listing c q).length < fuel → walk c q fuel none = some items) ∧
    ((∃ fuel, walk c q fuel none = some ((listing c q).flatMap Group.items)) ↔
      Unbroken q.limit (listing c q)) := by
  have hwalk (fuel : ℕ) :
      walk c q fuel none = (walkGroups c q fuel none).map (List.flatMap Group.items) :=
    @walk_eq c q none fuel fun g hg => by cases hg
  have hreads : (∃ fuel, walk c q fuel none = some ((listing c q).flatMap Group.items)) ↔
      Reads c q none (listing c q) := by
    refine exists_congr fun fuel => ?_
    rw [hwalk, Option.map_eq_some_iff]
    constructor
    · rintro ⟨gs, hgs, heq⟩
      rw [hgs, items_injective (fun g hg => walkGroups_sub hgs hg) (fun h hh => hh) heq]
    · exact fun hgs => ⟨_, hgs, rfl⟩
  constructor
  · obtain ⟨gs, hgs⟩ := @walkGroups_ends c q (listing c q) none _ rfl (Nat.lt_succ_self _)
    refine ⟨gs.flatMap Group.items, fun fuel hfuel => ?_⟩
    rw [hwalk, walkGroups_mono hgs hfuel]
    rfl
  · have hsplit := @listing_split c q
    have hall : (listing c q).takeWhile Group.starred ++
        ((listing c q).dropWhile Group.starred).takeWhile (fun g => g.rank == 0) ++
          ((listing c q).dropWhile Group.starred).dropWhile (fun g => g.rank == 0) =
            listing c q := by
      rw [List.append_assoc, List.takeWhile_append_dropWhile, List.takeWhile_append_dropWhile]
    have hiff := hsplit.reads (c := c) (q := q) hlimit (by rw [hall]; rfl)
    rw [hall, Option.or_none] at hiff
    rw [hreads, hiff]
    rfl

end Whole

section Examples

def everything (limit : ℕ) : Query :=
  { viewer := 1, kind := none, author := none, before := none, since := none, until' := none,
    leavingBefore := none, limit := limit }

def oldMessage : Message :=
  { id := 1, roomId := 1, authorId := 1, pinnedAt := none, deletedAt := none, createdAt := 10 }

def newMessage : Message :=
  { id := 2, roomId := 1, authorId := 1, pinnedAt := some 25, deletedAt := none, createdAt := 20 }

def starredUpload : Attachment :=
  { id := 11, messageId := some 1, uploaderId := 1, mime := "image/png", starredAt := some 15,
    complete := true, createdAt := 10 }

def newLink : Link := { messageId := 2, position := 0, url := "https://example.org" }

/-- A starred upload, and a newer message with a link that is pinned as well. -/
def starredThenLinked : Collection where
  attachments := [starredUpload]
  messages := [oldMessage, newMessage]
  links := [newLink]
  rooms := [{ id := 1, dm := false }]
  members := []
  attachmentIds := by decide
  messageIds := by decide
  linkIds := by decide
  apart := by decide
  few := by decide

/-- The same message by itself. -/
def onlyLinked : Collection where
  attachments := []
  messages := [newMessage]
  links := [newLink]
  rooms := [{ id := 1, dm := false }]
  members := []
  attachmentIds := by decide
  messageIds := by decide
  linkIds := by decide
  apart := by decide
  few := by decide

theorem pages_read_all_linked : 0 < 2 ∧ Unbroken 2 (listing onlyLinked (everything 2)) ∧
    ∃ fuel, walk onlyLinked (everything 2) fuel none =
      some ((listing onlyLinked (everything 2)).flatMap Group.items) :=
  ⟨by decide, by decide +kernel,
    (pages_read_all onlyLinked (everything 2) (by decide)).2.mpr (by decide +kernel)⟩

/-- Past a starred upload the newer link and pin are never read; with a page ending on a message's
link, neither is its pin. -/
theorem page_end_loses : 0 < (everything 1).limit ∧
    walk starredThenLinked (everything 1) 4 none = some [.upload starredUpload oldMessage] ∧
    (listing starredThenLinked (everything 1)).flatMap Group.items =
      [.upload starredUpload oldMessage, .link newLink newMessage, .pin newMessage] ∧
    walk onlyLinked (everything 1) 4 none = some [.link newLink newMessage] ∧
    (listing onlyLinked (everything 1)).flatMap Group.items =
      [.link newLink newMessage, .pin newMessage] := by
  decide +kernel

end Examples
end Linger.Media
