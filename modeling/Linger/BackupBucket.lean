import Linger.FiniteMap
import Linger.KeepLast
import Mathlib.Data.List.Lex
import Mathlib.Data.Char
import Mathlib.Data.Prod.Lex
import Mathlib.Data.List.Nodup

/-! The copies of the database that go to a bucket: the folder's newest of each kind is sent, and of
what the bucket then has the copies past a week of dailies and a month of weeklies are dropped. What
a date's text means is given. -/
namespace Linger.BackupBucket
open FiniteMap KeepLast

abbrev Name := List Char

inductive Kind
  | daily
  | weekly
deriving DecidableEq

def Kind.start : Kind → Name
  | .daily => "linger-daily-".toList
  | .weekly => "linger-weekly-".toList

def DAILY_KEPT : ℕ := 7
def WEEKLY_KEPT : ℕ := 4

def Kind.keep : Kind → ℕ
  | .daily => DAILY_KEPT
  | .weekly => WEEKLY_KEPT

/-- A copy's date as it is written, and its name: what copies are ordered by. -/
abbrev Dated := Name ×ₗ Name

/-- The folder's entries; none has a slash in its name. -/
structure Folder (Content : Type) where
  names : List Name
  read : Name → Content
  plain : ∀ name ∈ names, '/' ∉ name

/-- What lies in the bucket, by the name after the prefix. -/
abbrev Bucket (Content : Type) := FMap Name Content

variable {Day Content : Type} (parse : Name → Option Day)

section Code

/-- A copy's kind and date from its name; nothing for anything else. -/
def kindOf (name : Name) : Option (Kind × Name) :=
  (name.dropSuffix? ".db".toList).bind fun stem =>
    (match stem.dropPrefix? Kind.daily.start with
      | some date => some (Kind.daily, date)
      | none => (stem.dropPrefix? Kind.weekly.start).map fun date =>
        (Kind.weekly, date)).bind fun (kind, date) =>
      (parse date).map fun _ => (kind, date)

/-- The copies of one kind. -/
def copiesOf (wanted : Kind) (names : List Name) : List Dated :=
  names.filterMap fun name =>
    match kindOf parse name with
    | some (kind, date) => if kind = wanted then some (toLex (date, name)) else none
    | none => none

/-- The copies past a week of dailies and a month of weeklies, oldest first. -/
def pastKeeping (names : List Name) : List Name :=
  [Kind.daily, Kind.weekly].flatMap fun kind =>
    (past kind.keep (copiesOf parse kind names)).map fun copy => (ofLex copy).2

/-- The newest daily copy and the newest weekly one, when there are any. -/
def newestOfEach (names : List Name) : List Name :=
  [Kind.daily, Kind.weekly].filterMap fun wanted =>
    (copiesOf parse wanted names).max?.map fun copy => (ofLex copy).2

/-- A name directly under the prefix. -/
def listed (name : Name) : Bool := name ≠ [] && '/' ∉ name

/-- The names the bucket lists. -/
def sentNames (bucket : Bucket Content) : List Name := bucket.keys.filter listed

/-- One turn of the loop over the folder's newest. -/
def sendOne (folder : Folder Content) (state : List Name × List Name × Bucket Content)
    (name : Name) :
    List Name × List Name × Bucket Content :=
  if name ∈ state.1 then state
  else (state.1 ++ [name], state.2.1 ++ [name], state.2.2.insert name (folder.read name))

/-- The names sent, and the bucket afterwards. -/
def send (folder : Folder Content) (bucket : Bucket Content) : List Name × Bucket Content :=
  let sent :=
    (newestOfEach parse folder.names).foldl (sendOne folder) (sentNames bucket, [], bucket)
  (sent.2.1, (pastKeeping parse sent.1).foldl (fun bucket name => bucket.erase name) sent.2.2)

end Code

section Wanted
variable [LinearOrder Day]

/-- A name of a copy of this kind, from this day. -/
def IsCopy (kind : Kind) (name : Name) (day : Day) : Prop :=
  ∃ date, kindOf parse name = some (kind, date) ∧ parse date = some day

/-- What the bucket should be after one send. -/
structure Settles (folder : Folder Content) (bucket : Bucket Content) : Prop where
  newest : ∀ kind, (∃ name ∈ folder.names, ∃ day, IsCopy parse kind name day) →
    ∃ name ∈ folder.names, ∃ day, IsCopy parse kind name day ∧
      (∀ other ∈ folder.names, ∀ later, IsCopy parse kind other later → later ≤ day) ∧
      name ∈ (send parse folder bucket).2
  few : ∀ kind, (copiesOf parse kind (sentNames (send parse folder bucket).2)).length ≤ kind.keep
  latest : ∀ kind name day, listed name = true → IsCopy parse kind name day →
    (name ∈ bucket ∨ name ∈ (send parse folder bucket).1) → name ∉ (send parse folder bucket).2 →
    (copiesOf parse kind (sentNames (send parse folder bucket).2)).length = kind.keep ∧
      ∀ other later, listed other = true → IsCopy parse kind other later →
        other ∈ (send parse folder bucket).2 → day ≤ later
  others : ∀ name : Name, (listed name = true → kindOf parse name = none) →
    (send parse folder bucket).2[name]? = bucket[name]?
  again : send parse folder (send parse folder bucket).2 = ([], (send parse folder bucket).2)

/-- The names it will have had: those listed, and the folder's newest that are not among them. -/
def hadNames (folder : Folder Content) (bucket : Bucket Content) : List Name :=
  sentNames bucket ++ (newestOfEach parse folder.names).filter (· ∉ sentNames bucket)

/-- When the bucket settles, of one kind: the folder's last copy, by its name, has few enough of the
bucket's after it; a copy of the folder's newest day does too; and what falls past keeping by its
name is not of a later day. -/
structure Agrees (folder : Folder Content) (bucket : Bucket Content) (kind : Kind) : Prop where
  fresh : ∀ copy, (copiesOf parse kind folder.names).max? = some copy →
    after (copiesOf parse kind (sentNames bucket)) copy < kind.keep
  newest : (∃ name ∈ folder.names, ∃ day, IsCopy parse kind name day) →
    ∃ name ∈ folder.names, ∃ day, IsCopy parse kind name day ∧
      (∀ other ∈ folder.names, ∀ later, IsCopy parse kind other later → later ≤ day) ∧
      ∃ copy ∈ copiesOf parse kind (hadNames parse folder bucket), (ofLex copy).2 = name ∧
        after (copiesOf parse kind (hadNames parse folder bucket)) copy < kind.keep
  spelled : ∀ copy ∈ copiesOf parse kind (hadNames parse folder bucket),
    ∀ other ∈ copiesOf parse kind (hadNames parse folder bucket), ∀ day later,
      kind.keep ≤ after (copiesOf parse kind (hadNames parse folder bucket)) copy →
      after (copiesOf parse kind (hadNames parse folder bucket)) other < kind.keep →
      IsCopy parse kind (ofLex copy).2 day → IsCopy parse kind (ofLex other).2 later → day ≤ later

end Wanted

section Names
variable {parse} {kind : Kind} {name date : Name} {names : List Name}

theorem kindOf_some (h : kindOf parse name = some (kind, date)) :
    name = kind.start ++ date ++ ".db".toList := by
  obtain ⟨stem, hstem, h⟩ := Option.bind_eq_some_iff.mp h
  obtain ⟨tail, hname, htail⟩ := List.dropSuffix?_eq_some_iff.mp hstem
  obtain ⟨⟨found, text⟩, hfound, hparse⟩ := Option.bind_eq_some_iff.mp h
  obtain ⟨day, -, heq⟩ := Option.map_eq_some_iff.mp hparse
  rw [Prod.mk.injEq] at heq
  have hstart : stem = found.start ++ text := by
    cases hdaily : stem.dropPrefix? Kind.daily.start with
    | some rest =>
      obtain ⟨start, hsplit, hsame⟩ := List.dropPrefix?_eq_some_iff.mp hdaily
      rw [hdaily] at hfound
      have hpair := Option.some.inj hfound
      rw [Prod.mk.injEq] at hpair
      rw [← hpair.1, ← hpair.2, hsplit, eq_of_beq hsame]
    | none =>
      rw [hdaily] at hfound
      obtain ⟨rest, hweekly, hpair⟩ := Option.map_eq_some_iff.mp hfound
      obtain ⟨start, hsplit, hsame⟩ := List.dropPrefix?_eq_some_iff.mp hweekly
      rw [Prod.mk.injEq] at hpair
      rw [← hpair.1, ← hpair.2, hsplit, eq_of_beq hsame]
  rw [hname, eq_of_beq htail, hstart, heq.1, heq.2]

theorem mem_copiesOf {copy : Dated} : copy ∈ copiesOf parse kind names ↔
    (ofLex copy).2 ∈ names ∧ kindOf parse (ofLex copy).2 = some (kind, (ofLex copy).1) := by
  unfold copiesOf
  rw [List.mem_filterMap]
  constructor
  · rintro ⟨name, hmem, h⟩
    split at h
    · next found date hkind =>
      split at h
      · next hsame =>
        rw [← Option.some.inj h, ofLex_toLex, ← hsame]
        exact ⟨hmem, hkind⟩
      · cases h
    · cases h
  · rintro ⟨hmem, hkind⟩
    refine ⟨_, hmem, ?_⟩
    rw [hkind]
    dsimp only
    rw [if_pos rfl]
    rfl

theorem copiesOf_append (names more : List Name) :
    copiesOf parse kind (names ++ more) = copiesOf parse kind names ++ copiesOf parse kind more :=
  List.filterMap_append

theorem copiesOf_nodup (h : names.Nodup) : (copiesOf parse kind names).Nodup := by
  apply List.Nodup.filterMap _ h
  -- A copy says the name it is of.
  have hname : ∀ (name : Name) (copy : Dated), copy ∈ (match kindOf parse name with
      | some (found, date) => if found = kind then some (toLex (date, name)) else none
      | none => none) → (ofLex copy).2 = name := by
    intro name copy hcopy
    split at hcopy
    · split at hcopy
      · rw [← Option.mem_some_iff.mp hcopy, ofLex_toLex]
      · cases hcopy
    · cases hcopy
  intro first second copy hfirst hsecond
  rw [← hname first copy hfirst, hname second copy hsecond]

theorem mem_newestOfEach : name ∈ newestOfEach parse names ↔
    ∃ kind copy, (copiesOf parse kind names).max? = some copy ∧ (ofLex copy).2 = name := by
  unfold newestOfEach
  rw [List.mem_filterMap]
  constructor
  · rintro ⟨kind, -, h⟩
    obtain ⟨copy, hcopy, hname⟩ := Option.map_eq_some_iff.mp h
    exact ⟨kind, copy, hcopy, hname⟩
  · rintro ⟨kind, copy, hcopy, hname⟩
    refine ⟨kind, by cases kind <;> simp, ?_⟩
    rw [hcopy, Option.map_some, hname]

theorem newestOfEach_nodup (names : List Name) : (newestOfEach parse names).Nodup := by
  apply List.Nodup.filterMap _ (by decide : [Kind.daily, Kind.weekly].Nodup)
  -- The two are of different kinds.
  have hkind :
      ∀ kind name, name ∈ ((copiesOf parse kind names).max?.map fun copy => (ofLex copy).2) →
      ∃ date, kindOf parse name = some (kind, date) := by
    intro kind name hname
    obtain ⟨copy, hcopy, heq⟩ := Option.map_eq_some_iff.mp hname
    rw [← heq]
    exact ⟨_, (mem_copiesOf.mp (List.max?_mem hcopy)).2⟩
  intro first second name hfirst hsecond
  obtain ⟨date, hdate⟩ := hkind first name hfirst
  obtain ⟨other, hother⟩ := hkind second name hsecond
  rw [hdate, Option.some.injEq, Prod.mk.injEq] at hother
  exact hother.1

theorem mem_pastKeeping (h : names.Nodup) : name ∈ pastKeeping parse names ↔ ∃ kind,
    ∃ copy ∈ copiesOf parse kind names, (ofLex copy).2 = name ∧
      kind.keep ≤ after (copiesOf parse kind names) copy := by
  unfold pastKeeping
  simp only [List.mem_flatMap, List.mem_map, mem_past (copiesOf_nodup h)]
  constructor
  · rintro ⟨kind, -, copy, ⟨hmem, hafter⟩, hname⟩
    exact ⟨kind, copy, hmem, hname, hafter⟩
  · rintro ⟨kind, copy, hmem, hname, hafter⟩
    exact ⟨kind, by cases kind <;> simp, copy, ⟨hmem, hafter⟩, hname⟩

theorem pastKeeping_few (h : ∀ kind, (copiesOf parse kind names).length ≤ kind.keep) :
    pastKeeping parse names = [] := by
  unfold pastKeeping
  apply List.flatMap_eq_nil_iff.mpr
  intro kind _
  rw [past, Nat.sub_eq_zero_of_le (h kind), List.take_zero, List.map_nil]

end Names

section Sending
variable {parse} {folder : Folder Content} {bucket : Bucket Content} {kind : Kind} {name : Name}
  {names news : List Name}

theorem mem_sentNames : name ∈ sentNames bucket ↔ name ∈ bucket ∧ listed name = true := by
  rw [sentNames, List.mem_filter, Std.ExtTreeMap.mem_keys]

theorem sentNames_nodup (bucket : Bucket Content) : (sentNames bucket).Nodup :=
  Std.ExtTreeMap.nodup_keys.filter _

/-- The loop sends what is not there yet, and nothing twice. -/
theorem sendOne_fold (hnews : news.Nodup) (names sent : List Name) (bucket : Bucket Content) :
    news.foldl (sendOne folder) (names, sent, bucket) =
      (names ++ news.filter (· ∉ names), sent ++ news.filter (· ∉ names),
        (news.filter (· ∉ names)).foldl
          (fun bucket name => bucket.insert name (folder.read name)) bucket) := by
  induction news generalizing names sent bucket with
  | nil => simp
  | cons name news ih =>
    obtain ⟨hname, hrest⟩ := List.nodup_cons.mp hnews
    rw [List.foldl_cons, sendOne]
    by_cases hmem : name ∈ names
    · rw [if_pos hmem, ih hrest, List.filter_cons_of_neg (by simpa using hmem)]
    · have hfilter : news.filter (· ∉ names ++ [name]) = news.filter (· ∉ names) := by
        apply List.filter_congr
        intro other hother
        have hne : other ≠ name := fun heq => hname (heq ▸ hother)
        simp [hne]
      rw [if_neg hmem, ih hrest, hfilter, List.filter_cons_of_pos (by simpa using hmem),
        List.foldl_cons, List.append_assoc, List.append_assoc, List.singleton_append]

/-- What a send sends. -/
theorem send_sent : (send parse folder bucket).1 = (newestOfEach parse folder.names).filter
    (· ∉ sentNames bucket) := by
  unfold send
  rw [sendOne_fold (newestOfEach_nodup _)]
  rfl

theorem insert_all_read (names : List Name) (bucket : Bucket Content) (name : Name) :
    (names.foldl (fun bucket name => bucket.insert name (folder.read name)) bucket)[name]? =
      if name ∈ names then some (folder.read name) else bucket[name]? := by
  induction names generalizing bucket with
  | nil => simp
  | cons other names ih =>
    rw [List.foldl_cons, ih, insert_at]
    by_cases hsame : name = other
    · simp [hsame]
    · simp [hsame]

/-- What lies in the bucket after a send. -/
theorem send_at (name : Name) : (send parse folder bucket).2[name]? =
    if name ∈ pastKeeping parse (hadNames parse folder bucket) then none
    else if name ∈ (send parse folder bucket).1 then some (folder.read name)
      else bucket[name]? := by
  rw [send_sent]
  unfold send hadNames
  rw [sendOne_fold (newestOfEach_nodup _), erase_all_at, insert_all_read]
  by_cases hpast : name ∈ pastKeeping parse
      (sentNames bucket ++ (newestOfEach parse folder.names).filter (· ∉ sentNames bucket))
  · exact (if_pos hpast).trans (if_pos hpast).symm
  · exact (if_neg hpast).trans (if_neg hpast).symm

/-- A copy in the folder is of a name the bucket would list. -/
theorem listed_of_folder {date : Name} (hname : name ∈ folder.names)
    (hkind : kindOf parse name = some (kind, date)) :
    listed name = true := by
  have hplain := folder.plain name hname
  have hne : name ≠ [] := by
    rw [kindOf_some hkind]
    simp
  simp [listed, hne, hplain]

theorem newest_listed (h : name ∈ newestOfEach parse folder.names) : listed name = true := by
  obtain ⟨kind, copy, hcopy, hname⟩ := mem_newestOfEach.mp h
  have hmem := mem_copiesOf.mp (List.max?_mem hcopy)
  rw [← hname]
  exact listed_of_folder hmem.1 hmem.2

theorem hadNames_nodup : (hadNames parse folder bucket).Nodup := by
  apply List.Nodup.append (sentNames_nodup bucket) ((newestOfEach_nodup _).filter _)
  intro name hthere hnew
  rw [List.mem_filter, decide_eq_true_iff] at hnew
  exact hnew.2 hthere

theorem mem_hadNames : name ∈ hadNames parse folder bucket ↔
    listed name = true ∧ (name ∈ bucket ∨ name ∈ (send parse folder bucket).1) := by
  rw [hadNames, ← send_sent, List.mem_append, mem_sentNames]
  constructor
  · rintro (⟨hmem, hlisted⟩ | hsent)
    · exact ⟨hlisted, Or.inl hmem⟩
    · refine ⟨?_, Or.inr hsent⟩
      rw [send_sent, List.mem_filter] at hsent
      exact newest_listed hsent.1
  · rintro ⟨hlisted, hmem | hsent⟩
    · exact Or.inl ⟨hmem, hlisted⟩
    · exact Or.inr hsent

/-- A copy stays just when few enough of its kind come after it. -/
theorem mem_after {date : Name} (hlisted : listed name = true)
    (hkind : kindOf parse name = some (kind, date)) :
    name ∈ (send parse folder bucket).2 ↔
      toLex (date, name) ∈ copiesOf parse kind (hadNames parse folder bucket) ∧
      after (copiesOf parse kind (hadNames parse folder bucket)) (toLex (date, name)) <
        kind.keep := by
  have hhad : toLex (date, name) ∈ copiesOf parse kind (hadNames parse folder bucket) ↔
      name ∈ hadNames parse folder bucket := by
    rw [mem_copiesOf, ofLex_toLex]
    exact and_iff_left hkind
  have hpast : name ∈ pastKeeping parse (hadNames parse folder bucket) ↔
      toLex (date, name) ∈ copiesOf parse kind (hadNames parse folder bucket) ∧
        kind.keep ≤
          after (copiesOf parse kind (hadNames parse folder bucket)) (toLex (date, name)) := by
    rw [mem_pastKeeping hadNames_nodup]
    constructor
    · rintro ⟨found, copy, hmem, hname, hafter⟩
      have hcopy := (mem_copiesOf.mp hmem).2
      rw [hname, hkind, Option.some.injEq, Prod.mk.injEq] at hcopy
      have heq : copy = toLex (date, name) := by
        rw [hcopy.2, ← hname]
        rfl
      rw [hcopy.1, ← heq]
      exact ⟨hmem, hafter⟩
    · rintro ⟨hmem, hafter⟩
      exact ⟨kind, _, hmem, rfl, hafter⟩
  simp only [Std.ExtTreeMap.mem_iff_isSome_getElem?, send_at, hpast, hhad, mem_hadNames]
  split
  · next h =>
    rw [← not_le]
    simp [h.2]
  · next h =>
    split
    · next hsent =>
      rw [not_and, not_le] at h
      simp only [Option.isSome_some, true_iff]
      exact ⟨⟨hlisted, Or.inr hsent⟩, h ⟨hlisted, Or.inr hsent⟩⟩
    · next hsent =>
      rw [not_and, not_le] at h
      constructor
      · intro hmem
        exact ⟨⟨hlisted, Or.inl hmem⟩, h ⟨hlisted, Or.inl hmem⟩⟩
      · rintro ⟨⟨-, hmem | hmem⟩, -⟩
        · exact hmem
        · exact absurd hmem hsent

/-- The copies a send leaves are the last of what the bucket will have had. -/
theorem copies_after (kind : Kind) :
    (copiesOf parse kind (sentNames (send parse folder bucket).2)).Perm
    (kept kind.keep (copiesOf parse kind (hadNames parse folder bucket))) := by
  have hhadNames : (hadNames parse folder bucket).Nodup := hadNames_nodup
  have hnodup : (copiesOf parse kind (hadNames parse folder bucket)).Nodup :=
    copiesOf_nodup hhadNames
  apply (List.perm_ext_iff_of_nodup (copiesOf_nodup (sentNames_nodup _)) (kept_nodup hnodup)).mpr
  intro copy
  rw [mem_copiesOf, mem_sentNames, mem_kept hnodup]
  constructor
  · rintro ⟨⟨hmem, hlisted⟩, hkind⟩
    exact (mem_after hlisted hkind).mp hmem
  · rintro ⟨hmem, hafter⟩
    obtain ⟨hhad, hkind⟩ := mem_copiesOf.mp hmem
    have hlisted := (mem_hadNames.mp hhad).1
    exact ⟨⟨(mem_after hlisted hkind).mpr ⟨hmem, hafter⟩, hlisted⟩, hkind⟩

theorem copies_few (kind : Kind) :
    (copiesOf parse kind (sentNames (send parse folder bucket).2)).length ≤ kind.keep := by
  rw [(copies_after kind).length_eq, length_kept]
  exact Nat.min_le_left _ _

/-- A copy goes only when as many as are kept stay. -/
theorem copies_full {date : Name} (hlisted : listed name = true)
    (hkind : kindOf parse name = some (kind, date))
    (hhad : name ∈ hadNames parse folder bucket) (hgone : name ∉ (send parse folder bucket).2) :
    kind.keep ≤ after (copiesOf parse kind (hadNames parse folder bucket)) (toLex (date, name)) ∧
      (copiesOf parse kind (sentNames (send parse folder bucket).2)).length = kind.keep := by
  have hcopy : toLex (date, name) ∈ copiesOf parse kind (hadNames parse folder bucket) :=
    mem_copiesOf.mpr ⟨hhad, hkind⟩
  have hpast : kind.keep ≤
      after (copiesOf parse kind (hadNames parse folder bucket)) (toLex (date, name)) := by
    by_contra hfew
    exact hgone ((mem_after hlisted hkind).mpr ⟨hcopy, not_le.mp hfew⟩)
  refine ⟨hpast, ?_⟩
  rw [(copies_after kind).length_eq, length_kept, min_eq_left]
  exact hpast.trans List.countP_le_length

theorem others_stay (h : listed name = true → kindOf parse name = none) :
    (send parse folder bucket).2[name]? = bucket[name]? := by
  have hpast : name ∉ pastKeeping parse (hadNames parse folder bucket) := by
    rw [mem_pastKeeping hadNames_nodup]
    rintro ⟨kind, copy, hmem, hname, -⟩
    obtain ⟨hhad, hkind⟩ := mem_copiesOf.mp hmem
    rw [hname] at hhad hkind
    rw [h (mem_hadNames.mp hhad).1] at hkind
    cases hkind
  have hsent : name ∉ (send parse folder bucket).1 := by
    rw [send_sent, List.mem_filter]
    rintro ⟨hnew, -⟩
    obtain ⟨kind, copy, hcopy, hname⟩ := mem_newestOfEach.mp hnew
    have hkind := (mem_copiesOf.mp (List.max?_mem hcopy)).2
    rw [hname, h (newest_listed hnew)] at hkind
    cases hkind
  rw [send_at, if_neg hpast, if_neg hsent]

/-- The folder's last copy of a kind comes after the same copies of the bucket's whether or not it
is one of them. -/
theorem after_newest {copy : Dated} (hcopy : (copiesOf parse kind folder.names).max? = some copy) :
    after (copiesOf parse kind (hadNames parse folder bucket)) copy =
      after (copiesOf parse kind (sentNames bucket)) copy := by
  have hnew : (copiesOf parse kind
      ((newestOfEach parse folder.names).filter (· ∉ sentNames bucket))).countP (copy < ·) =
      0 := by
    apply List.countP_eq_zero.mpr
    intro other hother
    obtain ⟨hmem, hkind⟩ := mem_copiesOf.mp hother
    obtain ⟨found, last, hlast, hname⟩ := mem_newestOfEach.mp (List.mem_filter.mp hmem).1
    have hsame := (mem_copiesOf.mp (List.max?_mem hlast)).2
    rw [hname, hkind, Option.some.injEq, Prod.mk.injEq] at hsame
    have heq : other = last := Prod.ext hsame.2 hname.symm
    rw [← hsame.1, hcopy, ← heq] at hlast
    rw [Option.some.inj hlast, decide_eq_true_iff]
    exact lt_irrefl other
  rw [after, hadNames, copiesOf_append, List.countP_append, hnew, Nat.add_zero, after]

/-- What the folder would send is in the bucket when few enough there come after it. -/
theorem newest_stays {copy : Dated} (hcopy : (copiesOf parse kind folder.names).max? = some copy) :
    (ofLex copy).2 ∈ (send parse folder bucket).2 ↔
      after (copiesOf parse kind (sentNames bucket)) copy < kind.keep := by
  obtain ⟨hname, hkind⟩ := mem_copiesOf.mp (List.max?_mem hcopy)
  have hnew : (ofLex copy).2 ∈ newestOfEach parse folder.names :=
    mem_newestOfEach.mpr ⟨kind, copy, hcopy, rfl⟩
  have hhad : copy ∈ copiesOf parse kind (hadNames parse folder bucket) := by
    refine mem_copiesOf.mpr ⟨?_, hkind⟩
    rw [hadNames, List.mem_append, List.mem_filter, decide_eq_true_iff]
    exact (em _).imp id fun hnot => ⟨hnew, hnot⟩
  rw [mem_after (listed_of_folder hname hkind) hkind, ← after_newest hcopy]
  exact and_iff_right hhad

/-- A second send does nothing just when what it would send stayed. -/
theorem again_iff :
    send parse folder (send parse folder bucket).2 = ([], (send parse folder bucket).2) ↔
    ∀ kind copy, (copiesOf parse kind folder.names).max? = some copy →
      after (copiesOf parse kind (sentNames bucket)) copy < kind.keep := by
  have hnone : (send parse folder (send parse folder bucket).2).1 = [] ↔
      ∀ kind copy, (copiesOf parse kind folder.names).max? = some copy →
        after (copiesOf parse kind (sentNames bucket)) copy < kind.keep := by
    rw [send_sent, List.filter_eq_nil_iff]
    constructor
    · intro h kind copy hcopy
      have hnew : (ofLex copy).2 ∈ newestOfEach parse folder.names :=
        mem_newestOfEach.mpr ⟨kind, copy, hcopy, rfl⟩
      have hthere := h _ hnew
      rw [decide_eq_true_iff, not_not, mem_sentNames] at hthere
      exact (newest_stays hcopy).mp hthere.1
    · intro h name hnew
      obtain ⟨kind, copy, hcopy, hname⟩ := mem_newestOfEach.mp hnew
      rw [decide_eq_true_iff, not_not, mem_sentNames]
      refine ⟨?_, newest_listed hnew⟩
      rw [← hname]
      exact (newest_stays hcopy).mpr (h kind copy hcopy)
  rw [← hnone]
  constructor
  · intro h
    rw [h]
  · intro h
    refine Prod.ext h ?_
    apply Std.ExtTreeMap.ext_getElem?
    intro name
    -- Nothing more is there, so nothing is past keeping.
    have hsame : hadNames parse folder (send parse folder bucket).2 =
        sentNames (send parse folder bucket).2 := by
      rw [hadNames, ← send_sent, h, List.append_nil]
    rw [send_at, hsame, pastKeeping_few copies_few, h]
    simp

end Sending

section Settling
variable {parse} [LinearOrder Day] {folder : Folder Content} {bucket : Bucket Content} {kind : Kind}
  {name : Name}

theorem agrees_newest (h : ∃ name ∈ folder.names, ∃ day, IsCopy parse kind name day ∧
      (∀ other ∈ folder.names, ∀ later, IsCopy parse kind other later → later ≤ day) ∧
      name ∈ (send parse folder bucket).2) :
    ∃ name ∈ folder.names, ∃ day, IsCopy parse kind name day ∧
      (∀ other ∈ folder.names, ∀ later, IsCopy parse kind other later → later ≤ day) ∧
      ∃ copy ∈ copiesOf parse kind (hadNames parse folder bucket), (ofLex copy).2 = name ∧
        after (copiesOf parse kind (hadNames parse folder bucket)) copy < kind.keep := by
  obtain ⟨name, hname, day, ⟨date, hkind, hday⟩, hnewest, hthere⟩ := h
  obtain ⟨hmem, hafter⟩ := (mem_after (listed_of_folder hname hkind) hkind).mp hthere
  exact ⟨name, hname, day, ⟨date, hkind, hday⟩, hnewest, _, hmem, rfl, hafter⟩

theorem settles_newest (h : ∃ name ∈ folder.names, ∃ day, IsCopy parse kind name day ∧
      (∀ other ∈ folder.names, ∀ later, IsCopy parse kind other later → later ≤ day) ∧
      ∃ copy ∈ copiesOf parse kind (hadNames parse folder bucket), (ofLex copy).2 = name ∧
        after (copiesOf parse kind (hadNames parse folder bucket)) copy < kind.keep) :
    ∃ name ∈ folder.names, ∃ day, IsCopy parse kind name day ∧
      (∀ other ∈ folder.names, ∀ later, IsCopy parse kind other later → later ≤ day) ∧
      name ∈ (send parse folder bucket).2 := by
  obtain ⟨name, hname, day, hday, hnewest, copy, hmem, hsame, hafter⟩ := h
  obtain ⟨-, hkind⟩ := mem_copiesOf.mp hmem
  rw [hsame] at hkind
  refine ⟨name, hname, day, hday, hnewest, (mem_after (listed_of_folder hname hkind) hkind).mpr ?_⟩
  rw [← hsame]
  exact ⟨hmem, hafter⟩

/-- One send settles the bucket just when, of either kind, the folder's last copy is not older than
too many of the bucket's and the days are in the order they are written in. -/
theorem settles_iff (parse : Name → Option Day) (folder : Folder Content)
    (bucket : Bucket Content) :
    Settles parse folder bucket ↔ ∀ kind, Agrees parse folder bucket kind := by
  constructor
  · intro h kind
    refine ⟨again_iff.mp h.again kind, fun hsome => agrees_newest (h.newest kind hsome), ?_⟩
    intro copy hcopy other hother day later hpast hstays hday hlater
    obtain ⟨hhad, hkind⟩ := mem_copiesOf.mp hcopy
    obtain ⟨hotherHad, hotherKind⟩ := mem_copiesOf.mp hother
    have hlisted := mem_hadNames.mp hhad
    have hotherListed := mem_hadNames.mp hotherHad
    have hgone : (ofLex copy).2 ∉ (send parse folder bucket).2 := by
      intro hthere
      exact absurd ((mem_after hlisted.1 hkind).mp hthere).2 (not_lt.mpr hpast)
    have hthere : (ofLex other).2 ∈ (send parse folder bucket).2 :=
      (mem_after hotherListed.1 hotherKind).mpr ⟨hother, hstays⟩
    exact (h.latest kind _ day hlisted.1 hday hlisted.2 hgone).2 _ later hotherListed.1 hlater
      hthere
  · intro h
    refine ⟨fun kind hsome => settles_newest ((h kind).newest hsome), copies_few, ?_,
      fun name => others_stay, again_iff.mpr fun kind => (h kind).fresh⟩
    rintro kind name day hlisted ⟨date, hkind, hday⟩ hhad hgone
    have hmem := mem_hadNames.mpr ⟨hlisted, hhad⟩
    have hcopy : toLex (date, name) ∈ copiesOf parse kind (hadNames parse folder bucket) :=
      mem_copiesOf.mpr ⟨hmem, hkind⟩
    obtain ⟨hpast, hfull⟩ := copies_full hlisted hkind hmem hgone
    refine ⟨hfull, ?_⟩
    rintro other later hotherListed ⟨otherDate, hotherKind, hlater⟩ hthere
    obtain ⟨hother, hstays⟩ := (mem_after hotherListed hotherKind).mp hthere
    exact (h kind).spelled _ hcopy _ hother day later hpast hstays
      ⟨date, hkind, hday⟩ ⟨otherDate, hotherKind, hlater⟩

/-- Days of October 2026, as they are written. -/
def october (date : Name) : Option ℕ :=
  match date with
  | ['2', '0', '2', '6', '-', '1', '0', '-', tens, ones] =>
    if tens.isDigit && ones.isDigit then some ((tens.toNat - 48) * 10 + (ones.toNat - 48)) else none
  | _ => none

/-- A machine put back to the first of the month. -/
def putBack : Folder Unit where
  names := ["linger-daily-2026-10-01.db".toList]
  read _ := ()
  plain := by decide

/-- The bucket has a week of dailies that are newer. -/
def aWeek : Bucket Unit := [5, 6, 7, 8, 9, 10, 11].foldl (fun bucket (day : ℕ) =>
  bucket.insert ("linger-daily-2026-10-".toList ++
    [Char.ofNat (48 + day / 10), Char.ofNat (48 + day % 10)] ++ ".db".toList)
    ()) ∅

/-- What was sent is dropped again, and sent again. -/
theorem put_back_unsettled : ¬ Settles october putBack aWeek := by
  intro h
  have hfresh := again_iff.mp h.again Kind.daily
    (toLex ("2026-10-01".toList, "linger-daily-2026-10-01.db".toList))
    (by decide)
  revert hfresh
  decide

end Settling

end Linger.BackupBucket
