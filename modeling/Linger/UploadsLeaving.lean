import Linger.UploadsPool
import Linger.UploadsDue
import Linger.KeysetPages

/-! "Leaving soon": the date up to which it shows files, and what `when-full` takes once an upload
has brought the pool to its mark. -/
namespace Linger.Uploads
open FiniteMap

section Model

def I64_MAX : ℤ := 9223372036854775807
def LEAVING_SOON_DAYS : ℕ := 30

/-- The files `when-full` may take, oldest first. -/
def ordered (store : Store) : List (ℕ × Held) :=
  (store.chosen fun _ => takeable store).insertionSort fun a b => a.1 ≤ b.1

/-- Each file's date, with the sizes up to it summed. -/
def runningTotals : ℕ → List (ℕ × Held) → List (ℕ × ℕ)
  | _, [] => []
  | total, file :: files =>
    (file.1, total + file.2.sizeBytes) :: runningTotals (total + file.2.sizeBytes) files

def leavingWhenFull (store : Store) (batch : ℕ) : Option ℕ :=
  (((runningTotals 0 (ordered store)).filter fun row => batch ≤ row.2).map Prod.fst).min?

def leavingCutoff (config : Config) (store : Store) (now : ℤ) : Option ℤ :=
  match config.fileExpiry with
  | .off => none
  | .after days => some (now - (days - LEAVING_SOON_DAYS : ℕ) * DAY_MS)
  | .whenFull =>
    if store.poolUsed < (whenFullMarks config.poolBytes).2 then none
    -- Not a tenth's worth left to take: all of it is next in line.
    else some (((leavingWhenFull store (config.poolBytes / 10)).map Int.ofNat).getD I64_MAX)

/-- A request's statements one after another, with nothing else going on and no deletion refused. -/
inductive Ends (now : ℕ) : Store → Option Task → Store → Prop where
  | done (store : Store) : Ends now store none store
  | step {store after : Store} {task : Task}
      (rest : Ends now (advance store now .ok task).1 (advance store now .ok task).2 after) :
      Ends now store (some task) after

/-- `POST /uploads` reserves the bytes, having made the room they need when they wouldn't fit. -/
def Accepts (config : Config) (store : Store) (userId sizeBytes now : ℕ) (after : Store) : Prop :=
  ∃ room, Ends now store
      (if config.poolBytes < store.poolUsed + sizeBytes then
        begin config store (.makeRoomFor sizeBytes) else none) room ∧
    after = create config room userId sizeBytes now ∧ after.made = room.made + 1

end Model

section Purpose

/-- The rows as the routes leave them: no finished file is empty, a date is an i64, and a new id is
on no row. -/
structure Shelf extends Store where
  sized : ∀ (id : ℕ) (a : Attachment), toStore.attachments[id]? = some a → a.state = .complete →
    0 < a.sizeBytes
  dated : ∀ (id : ℕ) (a : Attachment), toStore.attachments[id]? = some a →
    (a.createdAt : ℤ) ≤ I64_MAX
  fresh : toStore.attachments[toStore.made]? = none

def bytes (files : List (ℕ × Held)) : ℕ := (files.map fun file => file.2.sizeBytes).sum

def Took (store after : Store) (id : ℕ) (a : Attachment) : Prop :=
  store.attachments[id]? = some a ∧ after.attachments[id]? = none

/-- What making room does, when `shown` is what "Leaving soon" was last asked of. -/
structure KeepsRoom (config : Config) (shown store after : Store) (asked : ℤ) : Prop where
  announced : ∀ id a, Took store after id a →
    ∃ cutoff, leavingCutoff config shown asked = some cutoff ∧ (a.createdAt : ℤ) ≤ cutoff
  chosen : ∀ id a, Took store after id a → takeable store a = some .oldest
  oldest : ∀ id a, Took store after id a → ∀ (other : ℕ) b, after.attachments[other]? = some b →
    takeable after b = some .oldest → a.createdAt < b.createdAt ∨ a.createdAt = b.createdAt ∧
      id < other
  -- When a file's turn came the pool was above the mark still; in the end it is not, or nothing is
  -- left to take.
  stops : ∀ id a, Took store after id a → ∀ earlier later,
    ordered store = earlier ++ (a.createdAt, a.held id .oldest) :: later →
      (whenFullMarks config.poolBytes).2 + bytes earlier < store.poolUsed
  settles : after.poolUsed ≤ (whenFullMarks config.poolBytes).2 ∨
    ∀ (id : ℕ) a, after.attachments[id]? = some a → takeable after a = none
  others : ∀ (id : ℕ) a, after.attachments[id]? = some a → store.attachments[id]? = some a

/-- It comes to an end, and does that. -/
def TellsTruth (config : Config) (shown store : Store) (asked : ℤ) (now : ℕ) : Prop :=
  (∃ after, Ends now store (begin config store .keepRoom) after) ∧
    ∀ after, Ends now store (begin config store .keepRoom) after →
      KeepsRoom config shown store after asked

/-- The files that go once `sizeBytes` more are in, past those that made the room for it, were next
in line: the pool had passed its lower mark, and what is dated before each adds up to less than a
tenth of it. -/
def Announced (config : Config) (store : Store) (sizeBytes : ℕ) : Prop :=
  ∀ earlier file later, ordered store = earlier ++ file :: later →
    store.poolUsed + sizeBytes ≤ config.poolBytes + bytes earlier →
    (whenFullMarks config.poolBytes).2 + bytes earlier < store.poolUsed + sizeBytes →
      (whenFullMarks config.poolBytes).2 ≤ store.poolUsed ∧
        bytes ((ordered store).filter fun other => other.1 < file.1) < config.poolBytes / 10

end Purpose

section Needed
variable {α : Type*} (weight : α → ℕ)

/-- As many from the front as it takes to reach `excess`. -/
def needed : ℕ → List α → List α
  | _, [] => []
  | excess, x :: xs => if excess = 0 then [] else x :: needed (excess - weight x) xs

variable {weight} {excess : ℕ} {xs earlier later : List α} {x : α}

theorem needed_zero (xs : List α) : needed weight 0 xs = [] := by
  cases xs <;> rfl

theorem needed_cons (h : excess ≠ 0) :
    needed weight excess (x :: xs) = x :: needed weight (excess - weight x) xs :=
  if_neg h

/-- Taking in batches comes to the same. -/
theorem needed_resume (n : ℕ) :
    ∀ excess xs, needed weight excess xs = needed weight excess (xs.take n) ++
    needed weight (excess - ((needed weight excess (xs.take n)).map weight).sum)
      (xs.drop (needed weight excess (xs.take n)).length) := by
  induction n with
  | zero =>
    intro excess xs
    simp [needed]
  | succ n ih =>
    intro excess xs
    cases xs with
    | nil => simp [needed]
    | cons x xs =>
      by_cases hzero : excess = 0
      · simp [hzero, needed_zero]
      · rw [List.take_succ_cons, needed_cons hzero, needed_cons hzero, List.map_cons, List.sum_cons,
          List.length_cons, List.drop_succ_cons, List.cons_append, Nat.sub_add_eq, ← ih]

theorem needed_of_le (xs : List α) : ∀ excess, excess ≤ (earlier.map weight).sum →
    needed weight excess (earlier ++ xs) = needed weight excess earlier := by
  induction earlier with
  | nil =>
    intro excess hle
    rw [Nat.le_zero.mp hle, needed_zero, needed_zero]
  | cons y earlier ih =>
    intro excess hle
    rw [List.map_cons, List.sum_cons] at hle
    by_cases hzero : excess = 0
    · rw [hzero, needed_zero, needed_zero]
    · rw [List.cons_append, needed_cons hzero, needed_cons hzero, ih _ (by omega)]

theorem needed_prefix (xs : List α) : ∀ excess, needed weight excess xs <+: xs := by
  induction xs with
  | nil => exact fun excess => List.prefix_rfl
  | cons x xs ih =>
    intro excess
    by_cases hzero : excess = 0
    · rw [hzero, needed_zero]
      exact List.nil_prefix
    · rw [needed_cons hzero]
      exact (List.prefix_cons_inj x).mpr (ih _)

/-- One is taken just when those before it don't reach. -/
theorem mem_needed (earlier : List α) (hnodup : (earlier ++ x :: later).Nodup) :
    x ∈ needed weight excess (earlier ++ x :: later) ↔ (earlier.map weight).sum < excess := by
  constructor
  · intro hmem
    by_contra hreached
    rw [needed_of_le _ _ (by omega)] at hmem
    have hin : x ∈ earlier := ( needed_prefix earlier excess).subset hmem
    exact List.disjoint_of_nodup_append hnodup hin List.mem_cons_self
  · clear hnodup
    induction earlier generalizing excess with
    | nil =>
      intro hless
      rw [List.nil_append, needed_cons (by simpa using hless.ne')]
      exact List.mem_cons_self
    | cons y earlier ih =>
      intro hless
      rw [List.map_cons, List.sum_cons] at hless
      rw [List.cons_append, needed_cons (by omega)]
      exact List.mem_cons_of_mem _ (ih (by omega))

/-- They reach it unless all are taken. -/
theorem le_of_needed (xs : List α) : ∀ excess, needed weight excess xs ≠ xs →
    excess ≤ ((needed weight excess xs).map weight).sum := by
  induction xs with
  | nil => exact fun excess hne => absurd rfl hne
  | cons x xs ih =>
    intro excess hne
    by_cases hzero : excess = 0
    · omega
    · rw [needed_cons hzero] at hne ⊢
      have hrest := ih (excess - weight x) fun hsame => hne (by rw [hsame])
      rw [List.map_cons, List.sum_cons]
      omega

end Needed

section Ordered
variable {store store' after : Store} {file other : ℕ × Held} {left : List (ℕ × Held)} {held : Held}
  {a : Attachment}

/-- By date, and by id where the dates are one. -/
def Older (file other : ℕ × Held) : Prop :=
  file.1 < other.1 ∨ file.1 = other.1 ∧ file.2.id < other.2.id

theorem takeable_oldest {r : Rule} (h : takeable store a = some r) : r = .oldest := by
  rw [takeable] at h
  split at h
  · split at h
    · split at h
      · exact (Option.some.inj h).symm
      · cases h
    · cases h
  · cases h

theorem takeable_complete (h : takeable store a = some .oldest) : a.state = .complete := by
  rw [takeable] at h
  split at h
  · next hfree => exact hfree.1
  · cases h

theorem takeable_messages (h : store'.messages = store.messages) :
    takeable store' a = takeable store a := by
  rw [takeable, takeable, Store.message, Store.message, h]

theorem mem_ordered : file ∈ ordered store ↔ ∃ a, store.attachments[file.2.id]? = some a ∧
    takeable store a = some .oldest ∧ file = (a.createdAt, a.held file.2.id .oldest) := by
  rw [ordered, List.mem_insertionSort, Store.chosen, List.mem_filterMap]
  constructor
  · rintro ⟨⟨id, a⟩, hrow, hfile⟩
    obtain ⟨rule, htakeable, rfl⟩ := Option.map_eq_some_iff.mp hfile
    obtain rfl := takeable_oldest htakeable
    exact ⟨a, Std.ExtTreeMap.mem_toList_iff_getElem?_eq_some.mp hrow, htakeable, rfl⟩
  · rintro ⟨a, hrow, htakeable, hfile⟩
    refine ⟨(file.2.id, a), Std.ExtTreeMap.mem_toList_iff_getElem?_eq_some.mpr hrow, ?_⟩
    rw [htakeable, Option.map_some, ← hfile]

theorem ordered_pairwise (store : Store) : (ordered store).Pairwise Older := by
  have hbyId :
      (store.chosen fun _ => takeable store).Pairwise fun file other => file.2.id < other.2.id := by
    refine List.Pairwise.filterMap _ ?_ store.attachments.ordered_keys_toList
    intro row row' hless file hfile file' hfile'
    obtain ⟨rule, -, rfl⟩ := Option.map_eq_some_iff.mp hfile
    obtain ⟨rule', -, rfl⟩ := Option.map_eq_some_iff.mp hfile'
    exact Nat.compare_eq_lt.mp hless
  have htotal : Std.Total fun file other : ℕ × Held => file.1 ≤ other.1 :=
    ⟨fun file other => le_total _ _⟩
  have htrans : IsTrans (ℕ × Held) fun file other => file.1 ≤ other.1 := ⟨fun _ _ _ => le_trans⟩
  apply KeysetPages.pairwise_insertionSort
  · exact fun file other hnot => Or.inl (not_le.mp hnot)
  · exact hbyId.imp fun hless hle hge => Or.inr ⟨le_antisymm hle hge, hless⟩

theorem Older.asymm (h : Older file other) : ¬ Older other file := by
  rw [Older] at *
  omega

theorem ordered_nodup (store : Store) : (ordered store).Nodup :=
  (ordered_pairwise store).imp fun {file other} holder (hsame : file = other) => by
    rw [hsame] at holder
    exact holder.asymm holder

/-- A list's files are told apart by their ids. -/
theorem eq_of_id (hfile : file ∈ ordered store) (hother : other ∈ ordered store)
    (hid : file.2.id = other.2.id) :
    file = other := by
  obtain ⟨a, ha, -, hfile⟩ := mem_ordered.mp hfile
  obtain ⟨b, hb, -, hother⟩ := mem_ordered.mp hother
  rw [hid] at ha hfile
  obtain rfl : a = b := Option.some.inj (ha.symm.trans hb)
  exact hfile.trans hother.symm

/-- The same files but for those that `gone` holds of make the same list but for those. -/
theorem ordered_filter (gone : ℕ → Bool) (hmessages : after.messages = store.messages)
    (hrows : ∀ id : ℕ, after.attachments[id]? = if gone id then none else store.attachments[id]?) :
    ordered after = (ordered store).filter fun file => !gone file.2.id := by
  apply KeysetPages.eq_of_pairwise_of_mem (fun _ _ => Older.asymm) (ordered_pairwise after)
    ((ordered_pairwise store).filter _)
  intro file
  rw [List.mem_filter, mem_ordered, mem_ordered]
  simp only [hrows, takeable_messages hmessages]
  cases gone file.2.id <;> simp

end Ordered

section Taking
variable {store after : Store} {file : ℕ × Held} {files left : List (ℕ × Held)} {held : Held}
  {rest : Rest} {task : Task}
  {now target excess freed : ℕ}

/-- A file taken: its original, its copies, then its row. -/
def Store.takes (store : Store) (held : Held) : Store :=
  (held.copies.foldl (fun store part => store.deleteObject held.id part)
    (begins store held .ok)).deletesWhere held.id
    fun a => held.rule != .removed || a.messageId.isNone

def takeAll (store : Store) (files : List Held) : Store := files.foldl Store.takes store

theorem ends_none : Ends now store none after ↔ after = store := by
  constructor
  · rintro ⟨⟩
    rfl
  · rintro rfl
    exact .done _

theorem ends_some : Ends now store (some task) after ↔
    Ends now (advance store now .ok task).1 (advance store now .ok task).2 after := by
  constructor
  · rintro ⟨⟩
    assumption
  · exact .step

theorem ends_copies (copies : List Part) :
    ∀ store, Ends now store (some (.deletesCopies held copies true rest)) after ↔
    Ends now
      ((copies.foldl (fun store part => store.deleteObject held.id part) store).deletesWhere held.id
      fun a => held.rule != .removed || a.messageId.isNone)
        (rest.frees held.sizeBytes).next after := by
  induction copies with
  | nil =>
    intro store
    rw [ends_some]
    exact ends_some
  | cons part copies ih =>
    intro store
    rw [ends_some]
    exact ih _

theorem ends_deletes : Ends now store (some (.deletes held rest)) after ↔
    Ends now (store.takes held) (rest.frees held.sizeBytes).next after := by
  rw [ends_some]
  exact ends_copies _ _

/-- A batch goes on until it has freed what was asked for, then the pool is read again. -/
theorem ends_batch (files : List Held) : ∀ store freed, (∀ held ∈ files, 0 < held.sizeBytes) →
    (0 < freed ∨ files ≠ []) → (Ends now store (Rest.oldest target excess freed files).next after ↔
      Ends now (takeAll store (needed Held.sizeBytes (excess - freed) files))
        (some (.readsPool target)) after) := by
  induction files with
  | nil =>
    intro store freed _ hfreed
    rw [Rest.next, if_neg (by simpa [Nat.pos_iff_ne_zero] using hfreed)]
    rfl
  | cons held files ih =>
    intro store freed hsized _
    rw [Rest.next]
    by_cases hless : freed < excess
    · have hsize := hsized held List.mem_cons_self
      rw [if_pos hless, ends_deletes, needed_cons (by omega), Rest.frees,
        ih _ _ (fun held hmem => hsized held (List.mem_cons_of_mem _ hmem)) (Or.inl (by omega)),
        Nat.sub_add_eq]
      rfl
    · rw [if_neg hless, Nat.sub_eq_zero_of_le (not_lt.mp hless), needed_zero]
      rfl

/-- Objects apart, a file taken is its row gone. -/
theorem takes_rows (hrule : held.rule = .oldest) :
    (store.takes held).attachments = store.attachments.erase held.id ∧
    (store.takes held).messages = store.messages ∧ (store.takes held).made = store.made := by
  have hcopies : ∀ (copies : List Part) (store : Store),
      (copies.foldl (fun store part => store.deleteObject held.id part) store).attachments =
        store.attachments ∧
      (copies.foldl (fun store part => store.deleteObject held.id part) store).messages =
        store.messages ∧
      (copies.foldl (fun store part => store.deleteObject held.id part) store).made =
        store.made := by
    intro copies
    induction copies with
    | nil => exact fun store => ⟨rfl, rfl, rfl⟩
    | cons part copies ih => exact fun store => ih _
  obtain ⟨hrows, hmessages, hmade⟩ := hcopies held.copies (begins store held .ok)
  rw [Store.takes, Store.deletesWhere]
  split
  · exact ⟨congrArg (fun rows => rows.erase held.id) hrows, hmessages, hmade⟩
  · next hnone =>
    refine ⟨?_, hmessages, hmade⟩
    have hgone : store.attachments[held.id]? = none := by
      rw [hrows] at hnone
      cases hrow : (begins store held .ok).attachments[held.id]? with
      | none => exact hrow
      | some a =>
        rw [hrow, Option.any_some, hrule] at hnone
        exact absurd rfl hnone
    rw [hrows]
    ext1 id
    rw [erase_at]
    split
    · next hid => rw [hid]; exact hgone
    · rfl

/-- What making room has come to, with these files taken. -/
structure Taken (store after : Store) (files left : List (ℕ × Held)) : Prop where
  left : ordered after = left
  pool : store.poolUsed = bytes files + after.poolUsed
  rows : ∀ id : ℕ, after.attachments[id]? =
    if id ∈ files.map fun file => file.2.id then none else store.attachments[id]?
  messages : after.messages = store.messages
  made : after.made = store.made

theorem taken_one (hordered : ordered store = file :: left) :
    Taken store (store.takes file.2) [file] left := by
  have hfile : file ∈ ordered store := by
    rw [hordered]
    exact List.mem_cons_self
  obtain ⟨a, ha, htakeable, hsame⟩ := mem_ordered.mp hfile
  have hrule : file.2.rule = .oldest := by rw [hsame]; rfl
  have hsize : file.2.sizeBytes = a.pooled := by
    rw [Attachment.pooled, takeable_complete htakeable, hsame]
    rfl
  have htaken := @takes_rows store _ hrule
  obtain ⟨hrows, hmessages, hmade⟩ := htaken
  have hat : ∀ id : ℕ, (store.takes file.2).attachments[id]? =
      if decide (id = file.2.id) then none else store.attachments[id]? := by
    intro id
    rw [hrows, erase_at]
    simp only [decide_eq_true_eq]
  refine ⟨?_, ?_, fun id => ?_, hmessages, hmade⟩
  · rw [ordered_filter _ hmessages hat, hordered, List.filter_cons_of_neg (by simp)]
    apply List.filter_eq_self.mpr
    intro other hother
    have holder := (List.pairwise_cons.mp (hordered ▸ ordered_pairwise store)).1 other hother
    have hmem : other ∈ ordered store := by
      rw [hordered]
      exact List.mem_cons_of_mem _ hother
    have hne : other.2.id ≠ file.2.id := by
      intro hid
      rw [eq_of_id hmem hfile hid] at holder
      exact holder.asymm holder
    simpa using hne
  · rw [poolUsed_eq, poolUsed_eq, hrows, total_of_at _ ha, ← hsize]
    simp [bytes]
  · rw [hat]
    simp

theorem taken_all (files : List (ℕ × Held)) : ∀ store, ordered store = files ++ left →
    Taken store (takeAll store (files.map Prod.snd)) files left := by
  induction files with
  | nil => exact fun store hordered =>
    ⟨hordered, by simp [bytes, takeAll], by simp [takeAll], rfl, rfl⟩
  | cons file files ih =>
    intro store hordered
    have hone := taken_one hordered
    have hrest := ih _ hone.left
    refine ⟨hrest.left, ?_, fun id => ?_, hrest.messages.trans hone.messages,
      hrest.made.trans hone.made⟩
    · have hpool := hrest.pool
      rw [hone.pool, hpool]
      simp only [bytes, List.map_cons, List.map_nil, List.sum_cons, List.sum_nil, takeAll,
        List.foldl_cons]
      omega
    · have hat := hrest.rows id
      rw [takeAll, List.map_cons, List.foldl_cons]
      rw [takeAll] at hat
      rw [hat, hone.rows]
      simp only [List.map_cons, List.map_nil, List.mem_cons, List.not_mem_nil, or_false]
      by_cases hid : id = file.2.id
      · rw [if_pos hid, ite_self, if_pos (Or.inl hid)]
      · rw [if_neg hid]
        exact if_congr (or_iff_right hid).symm rfl rfl

def sizeOf (file : ℕ × Held) : ℕ := file.2.sizeBytes

theorem needed_held (files : List (ℕ × Held)) :
    ∀ excess, needed Held.sizeBytes excess (files.map Prod.snd) =
    (needed sizeOf excess files).map Prod.snd := by
  induction files with
  | nil => exact fun excess => rfl
  | cons file files ih =>
    intro excess
    by_cases hzero : excess = 0
    · rw [hzero, needed_zero, needed_zero]
      rfl
    · rw [List.map_cons, needed_cons hzero, needed_cons hzero, ih, List.map_cons, sizeOf]

/-- Making room takes the oldest it needs and ends, whatever it was over by. -/
theorem ends_readsPool (now target : ℕ) (after : Store) : ∀ n store, (ordered store).length = n →
    (∀ file ∈ ordered store, 0 < file.2.sizeBytes) →
    (Ends now store (some (.readsPool target)) after ↔
      after = takeAll store
        ((needed sizeOf (store.poolUsed - target) (ordered store)).map Prod.snd)) := by
  intro n
  -- On the files left to take: each batch takes some.
  induction n using Nat.strong_induction_on with
  | _ n ih =>
    intro store hn hsized
    rw [ends_some]
    by_cases hroom : store.poolUsed ≤ target
    · rw [advance, if_pos hroom, ends_none, Nat.sub_eq_zero_of_le hroom, needed_zero]
      rfl
    have hexcess : store.poolUsed - target ≠ 0 := by omega
    have hbatch : oldestFirst (store.chosen fun _ => takeable store) =
        ((ordered store).take SWEEP_BATCH).map Prod.snd := rfl
    rw [advance, if_neg hroom, ends_some, advance, hbatch]
    by_cases hnone : ordered store = []
    · rw [hnone]
      exact ends_none
    obtain ⟨taken, htaken⟩ : ∃ taken,
        taken = needed sizeOf (store.poolUsed - target) ((ordered store).take SWEEP_BATCH) :=
      ⟨_, rfl⟩
    have hsome : 0 < taken.length := by
      obtain ⟨file, files, hfiles⟩ := List.exists_cons_of_ne_nil hnone
      rw [htaken, hfiles, SWEEP_BATCH, List.take_succ_cons, needed_cons hexcess]
      exact Nat.succ_pos _
    have hsplit : ordered store = taken ++ (ordered store).drop taken.length := by
      have hfront : taken <+: ordered store :=
        htaken ▸ ( needed_prefix _ _).trans (List.take_prefix _ _)
      exact (List.prefix_iff_eq_append.mp hfront).symm
    have hdone := taken_all taken store hsplit
    have hbytes : (taken.map sizeOf).sum = bytes taken := rfl
    have hpool := hdone.pool
    dsimp only
    rw [ends_batch _ _ _ ?hpositive (Or.inr ?hrows), Nat.sub_zero, needed_held, ← htaken,
      ih _ ?hless _ rfl ?hleft, hdone.left,
      needed_resume SWEEP_BATCH (store.poolUsed - target) (ordered store), ← htaken,
      hbytes, List.map_append, takeAll, takeAll, takeAll, List.foldl_append]
    · have hexcess' : (takeAll store (taken.map Prod.snd)).poolUsed - target =
          store.poolUsed - target - bytes taken := by
        omega
      rw [takeAll] at hexcess'
      rw [hexcess']
    case hpositive =>
      exact List.forall_mem_map.mpr fun file hmem => hsized file (List.mem_of_mem_take hmem)
    case hrows => simp [SWEEP_BATCH, hnone]
    case hless =>
      rw [hdone.left, List.length_drop, ← hn]
      have hlength := congrArg List.length hsplit
      rw [List.length_append, List.length_drop] at hlength
      omega
    case hleft =>
      rw [hdone.left]
      exact fun file hmem => hsized file (List.mem_of_mem_drop hmem)

end Taking

section Cutoff
variable {config : Config} {store : Store} {file : ℕ × Held} {files : List (ℕ × Held)} {batch : ℕ}
  {asked : ℤ}

theorem mem_runningTotals {row : ℕ × ℕ} (files : List (ℕ × Held)) :
    ∀ total, row ∈ runningTotals total files ↔
    ∃ earlier file later, files = earlier ++ file :: later ∧
      row = (file.1, total + bytes earlier + file.2.sizeBytes) := by
  induction files with
  | nil =>
    intro total
    simp [runningTotals]
  | cons file files ih =>
    intro total
    rw [runningTotals, List.mem_cons, ih]
    constructor
    · rintro (rfl | ⟨earlier, other, later, rfl, rfl⟩)
      · exact ⟨[], file, files, rfl, rfl⟩
      · refine ⟨file :: earlier, other, later, rfl, ?_⟩
        simp only [bytes, List.map_cons, List.sum_cons, Nat.add_assoc]
    · rintro ⟨earlier, other, later, hsplit, rfl⟩
      cases earlier with
      | nil =>
        obtain ⟨rfl, rfl⟩ := List.cons.inj hsplit
        exact Or.inl rfl
      | cons first earlier =>
        obtain ⟨rfl, rfl⟩ := List.cons.inj hsplit
        refine Or.inr ⟨earlier, other, later, rfl, ?_⟩
        simp only [bytes, List.map_cons, List.sum_cons, Nat.add_assoc]

/-- A list by date is what comes before a date, then the rest. -/
theorem exists_split (day : ℕ) (hfiles : files.Pairwise Older) :
    ∃ older newer, files = older ++ newer ∧
    (∀ file ∈ older, file.1 < day) ∧ ∀ file ∈ newer, day ≤ file.1 := by
  induction files with
  | nil => exact ⟨[], [], rfl, by simp, by simp⟩
  | cons file files ih =>
    obtain ⟨hfile, hfiles⟩ := List.pairwise_cons.mp hfiles
    by_cases hbefore : file.1 < day
    · obtain ⟨older, newer, rfl, holder, hnewer⟩ := ih hfiles
      exact ⟨file :: older, newer, rfl, List.forall_mem_cons.mpr ⟨hbefore, holder⟩, hnewer⟩
    · refine ⟨[], file :: files, rfl, by simp,
        List.forall_mem_cons.mpr ⟨by omega, fun other hmem => ?_⟩⟩
      rcases hfile other hmem with hless | ⟨hsame, -⟩
      · omega
      · omega

theorem bytes_append (earlier later : List (ℕ × Held)) :
    bytes (earlier ++ later) = bytes earlier + bytes later := by
  simp [bytes]

theorem bytes_filter_le (p : ℕ × Held → Bool) (files : List (ℕ × Held)) :
    bytes (files.filter p) ≤ bytes files := by
  induction files with
  | nil => exact le_rfl
  | cons file files ih =>
    rw [List.filter_cons]
    split
    · exact Nat.add_le_add_left ih _
    · exact ih.trans (Nat.le_add_left _ _)

/-- A file is dated by the cutoff just when what is dated before it doesn't make the batch. -/
theorem le_leavingWhenFull (hbatch : 0 < batch) (hdated : (file.1 : ℤ) ≤ I64_MAX) :
    (file.1 : ℤ) ≤ ((leavingWhenFull store batch).map Int.ofNat).getD I64_MAX ↔
      bytes ((ordered store).filter fun other => other.1 < file.1) < batch := by
  obtain ⟨older, newer, hsplit, holder, hnewer⟩ := exists_split file.1 (ordered_pairwise store)
  have hfilter : ((ordered store).filter fun other => other.1 < file.1) = older := by
    have hin : (older.filter fun other => decide (other.1 < file.1)) = older :=
      List.filter_eq_self.mpr fun other hmem => decide_eq_true (holder other hmem)
    have hout : (newer.filter fun other => decide (other.1 < file.1)) = [] := by
      apply List.filter_eq_nil_iff.mpr
      intro other hmem
      rw [decide_eq_true_eq, not_lt]
      exact hnewer other hmem
    rw [hsplit, List.filter_append, hin, hout, List.append_nil]
  rw [hfilter]
  have hmem : ∀ day,
      day ∈ ((runningTotals 0 (ordered store)).filter fun row => batch ≤ row.2).map Prod.fst ↔
      ∃ earlier other later, ordered store = earlier ++ other :: later ∧
        batch ≤ bytes earlier + other.2.sizeBytes ∧ other.1 = day := by
    intro day
    simp only [List.mem_map, List.mem_filter, mem_runningTotals, decide_eq_true_eq, Nat.zero_add]
    constructor
    · rintro ⟨row, ⟨⟨earlier, other, later, hordered, rfl⟩, hreach⟩, rfl⟩
      exact ⟨earlier, other, later, hordered, hreach, rfl⟩
    · rintro ⟨earlier, other, later, hordered, hreach, rfl⟩
      exact ⟨_, ⟨⟨earlier, other, later, hordered, rfl⟩, hreach⟩, rfl⟩
  constructor
  · intro hcutoff
    by_contra hreach
    -- The last of those dated before it has a running total that makes the batch.
    rcases List.eq_nil_or_concat older with rfl | ⟨earlier, other, rfl⟩
    · rw [bytes, List.map_nil, List.sum_nil] at hreach
      exact hreach hbatch
    · have hother := holder other (by simp)
      have hday := (hmem other.1).mpr ⟨earlier, other, newer, by rw [hsplit, List.concat_append], by
        rw [List.concat_eq_append, bytes_append] at hreach
        simpa [bytes] using hreach, rfl⟩
      cases hmin : leavingWhenFull store batch with
      | none =>
        rw [leavingWhenFull, List.min?_eq_none_iff] at hmin
        rw [hmin] at hday
        exact List.not_mem_nil hday
      | some first =>
        rw [hmin, Option.map_some, Option.getD_some] at hcutoff
        have hfirst := (List.min?_eq_some_iff.mp hmin).2 other.1 hday
        have hfile : file.1 ≤ first := Int.ofNat_le.mp hcutoff
        omega
  · intro hless
    cases hmin : leavingWhenFull store batch with
    | none => exact hdated
    | some first =>
      rw [Option.map_some, Option.getD_some]
      apply Int.ofNat_le.mpr
      by_contra hafter
      obtain ⟨earlier, other, later, hordered, hreach, rfl⟩ :=
        (hmem first).mp (List.min?_eq_some_iff.mp hmin).1
      -- All up to it are dated before the file.
      have hpairwise := hordered ▸ ordered_pairwise store
      have hbefore : bytes earlier + other.2.sizeBytes ≤ bytes older := by
        rw [← hfilter, hordered, List.filter_append,
          List.filter_cons_of_pos (by simpa using hafter)]
        have hall : (earlier.filter fun row => decide (row.1 < file.1)) = earlier := by
          apply List.filter_eq_self.mpr
          intro row hrow
          rcases (List.pairwise_append.mp hpairwise).2.2 row hrow other List.mem_cons_self with
            hold | ⟨hold, -⟩
          · exact decide_eq_true (by omega)
          · exact decide_eq_true (by omega)
        rw [hall, bytes_append]
        simp only [bytes, List.map_cons, List.sum_cons]
        omega
      omega

theorem shown_iff (hfull : config.fileExpiry = .whenFull) (hbatch : 0 < config.poolBytes / 10)
    (hdated : (file.1 : ℤ) ≤ I64_MAX) :
    (∃ cutoff, leavingCutoff config store asked = some cutoff ∧ (file.1 : ℤ) ≤ cutoff) ↔
      (whenFullMarks config.poolBytes).2 ≤ store.poolUsed ∧
        bytes ((ordered store).filter fun other => other.1 < file.1) < config.poolBytes / 10 := by
  rw [leavingCutoff, hfull, ← le_leavingWhenFull hbatch hdated]
  dsimp only
  by_cases hroom : store.poolUsed < (whenFullMarks config.poolBytes).2
  · rw [if_pos hroom]
    simp [hroom]
  · rw [if_neg hroom, and_iff_right (not_lt.mp hroom)]
    simp

end Cutoff

section Passes
variable {config : Config} {store after : Store} {shelf : Shelf} {file : ℕ × Held}
  {files left first second earlier later : List (ℕ × Held)} {a : Attachment}
    {id userId sizeBytes now target : ℕ} {asked : ℤ}

theorem Taken.took (htaken : Taken store after files left)
    (hordered : ordered store = files ++ left) :
    Took store after id a ↔ store.attachments[id]? = some a ∧ takeable store a = some .oldest ∧
      (a.createdAt, a.held id .oldest) ∈ files := by
  rw [Took, htaken.rows]
  constructor
  · rintro ⟨ha, hgone⟩
    split at hgone
    · next hid =>
      obtain ⟨file, hfile, rfl⟩ := List.mem_map.mp hid
      have hmem : file ∈ ordered store := by
        rw [hordered]
        exact List.mem_append_left _ hfile
      obtain ⟨b, hb, htakeable, hsame⟩ := mem_ordered.mp hmem
      obtain rfl : a = b := Option.some.inj (ha.symm.trans hb)
      exact ⟨ha, htakeable, hsame ▸ hfile⟩
    · rw [ha] at hgone
      cases hgone
  · rintro ⟨ha, -, hfile⟩
    exact ⟨ha, if_pos (List.mem_map.mpr ⟨_, hfile, rfl⟩)⟩

/-- All but the announcement is so of any pass that takes the oldest it needs. -/
theorem keepsRoom_iff (shown : Store) (hordered : ordered store = second ++ left)
    (hsecond : second =
      needed sizeOf (store.poolUsed - (whenFullMarks config.poolBytes).2) (ordered store))
    (htaken : Taken store after second left) :
    KeepsRoom config shown store after asked ↔ ∀ file ∈ second,
      ∃ cutoff, leavingCutoff config shown asked = some cutoff ∧ (file.1 : ℤ) ≤ cutoff := by
  constructor
  · intro hkeeps file hfile
    -- What was taken was announced, each file by the row it has.
    have hmem : file ∈ ordered store := by
      rw [hordered]
      exact List.mem_append_left _ hfile
    obtain ⟨a, ha, htakeable, hsame⟩ := mem_ordered.mp hmem
    have hshown := hkeeps.announced _ a ((htaken.took hordered).mpr ⟨ha, htakeable, hsame ▸ hfile⟩)
    rw [hsame]
    exact hshown
  · intro hannounced
    -- `announced`, then what holds of any pass that takes the oldest it needs.
    refine ⟨?_, ?_, ?_, ?_, ?_, ?_⟩
    · intro id a htook
      exact hannounced _ ((htaken.took hordered).mp htook).2.2
    · intro id a htook
      exact ((htaken.took hordered).mp htook).2.1
    -- Oldest first: what is left comes after what was taken.
    · intro id a htook other b hb htakeable
      have hfile := ((htaken.took hordered).mp htook).2.2
      have hother : (b.createdAt, b.held other .oldest) ∈ left := by
        rw [← htaken.left]
        exact mem_ordered.mpr ⟨b, hb, htakeable, rfl⟩
      have hpairwise := hordered ▸ ordered_pairwise store
      exact (List.pairwise_append.mp hpairwise).2.2 _ hfile _ hother
    -- None more than it must: what came before a file was still too little.
    · intro id a htook earlier later hsplit
      have hfile := ((htaken.took hordered).mp htook).2.2
      have hnodup := ordered_nodup store
      rw [hsplit] at hnodup
      rw [hsecond, hsplit, mem_needed earlier hnodup] at hfile
      have hbytes : (earlier.map sizeOf).sum = bytes earlier := rfl
      omega
    -- It takes all there is, or enough to be under the mark.
    · by_cases hall : second = ordered store
      · refine Or.inr fun id a ha => ?_
        have hnone : ordered after = [] := by
          rw [htaken.left]
          exact List.append_right_eq_self.mp (hordered.symm.trans hall.symm)
        cases htakeable : takeable after a with
        | none => rfl
        | some rule =>
          obtain rfl := takeable_oldest htakeable
          have hmem : (a.createdAt, a.held id .oldest) ∈ ordered after :=
            mem_ordered.mpr ⟨a, ha, htakeable, rfl⟩
          rw [hnone] at hmem
          cases hmem
      · have hreach :
            store.poolUsed - (whenFullMarks config.poolBytes).2 ≤ (second.map sizeOf).sum := by
          rw [hsecond] at hall ⊢
          exact le_of_needed _ _ hall
        have hbytes : (second.map sizeOf).sum = bytes second := rfl
        have hpool := htaken.pool
        exact Or.inl (by omega)
    · intro id a ha
      rw [htaken.rows] at ha
      split at ha
      · cases ha
      · exact ha

/-- Room for an upload is made from the oldest, as much as it needs. -/
theorem ends_room (hfull : config.fileExpiry = .whenFull)
    (hsized : ∀ file ∈ ordered store, 0 < file.2.sizeBytes) {room : Store}
    (hends : Ends now store (if config.poolBytes < store.poolUsed + sizeBytes then
      begin config store (.makeRoomFor sizeBytes) else none) room) :
    room = takeAll store
      ((needed sizeOf (store.poolUsed - (config.poolBytes - sizeBytes)) (ordered store)).map
        Prod.snd) := by
  split at hends
  · rw [begin, if_pos hfull, ends_readsPool now _ room _ store rfl hsized] at hends
    exact hends
  · next hroom =>
    rw [Nat.sub_eq_zero_of_le (by omega), needed_zero]
    exact ends_none.mp hends

/-- A slot is reserved by a row that may not be taken yet. -/
structure Reserved (room after : Store) (sizeBytes : ℕ) : Prop where
  ordered : ordered after = ordered room
  pool : after.poolUsed = sizeBytes + room.poolUsed

theorem create_reserved {room : Store} (hfresh : room.attachments[room.made]? = none)
    (hmade : (create config room userId sizeBytes now).made = room.made + 1) :
    Reserved room (create config room userId sizeBytes now) sizeBytes ∧
      room.poolUsed + sizeBytes ≤ config.poolBytes := by
  rw [create] at hmade ⊢
  split at hmade
  · omega
  · next hfits =>
    rw [if_neg hfits]
    refine ⟨⟨?_, ?_⟩, by omega⟩
    · apply KeysetPages.eq_of_pairwise_of_mem (fun _ _ => Older.asymm) (ordered_pairwise _)
        (ordered_pairwise _)
      intro file
      rw [mem_ordered, mem_ordered]
      refine exists_congr fun a => ?_
      simp only [insert_at]
      by_cases hid : file.2.id = room.made
      · rw [if_pos hid, hid, hfresh]
        refine iff_of_false ?_ (by simp)
        rintro ⟨hnew, htakeable, -⟩
        have hcomplete := takeable_complete htakeable
        rw [← Option.some.inj hnew] at hcomplete
        cases hcomplete
      · rw [if_neg hid]
        rfl
    · have hsame : room.attachments.erase room.made = room.attachments := by
        ext1 id
        rw [erase_at]
        split
        · next hid => rw [hid, hfresh]
        · rfl
      rw [poolUsed_eq, poolUsed_eq, total_insert, hsame]
      rfl

/-- What a pass after an upload takes: what room for it didn't need, until the pool is at the
mark. -/
theorem mem_second (hsplit : ordered store = earlier ++ file :: later)
    (hordered : ordered store = first ++ left)
    (hfirst : first =
      needed sizeOf (store.poolUsed - (config.poolBytes - sizeBytes)) (ordered store))
    (hpool : store.poolUsed + sizeBytes = bytes first + after.poolUsed)
    (hfits : sizeBytes ≤ config.poolBytes) :
    file ∈ needed sizeOf (after.poolUsed - target) left ↔
      store.poolUsed + sizeBytes ≤ config.poolBytes + bytes earlier ∧
      target + bytes earlier < store.poolUsed + sizeBytes := by
  have hnodup := hsplit ▸ ordered_nodup store
  have hbytes : (earlier.map sizeOf).sum = bytes earlier := rfl
  by_cases hpast : store.poolUsed - (config.poolBytes - sizeBytes) ≤ (earlier.map sizeOf).sum
  · have hfront : first <+: earlier := by
      rw [hfirst, hsplit, needed_of_le _ _ hpast]
      exact needed_prefix _ _
    obtain ⟨between, rfl⟩ := hfront
    have hleft : left = between ++ file :: later := by
      apply List.append_cancel_left
      rw [← hordered, hsplit, List.append_assoc]
    rw [List.append_assoc] at hnodup
    have hsum : (between.map sizeOf).sum = bytes between := rfl
    rw [hbytes, bytes_append] at hpast
    rw [hleft, mem_needed between (List.nodup_append.mp hnodup).2.1, hsum, bytes_append]
    omega
  · refine iff_of_false ?_ (by omega)
    intro hmem
    have hin : file ∈ first := by
      rw [hfirst, hsplit, mem_needed earlier hnodup]
      omega
    exact List.disjoint_of_nodup_append (hordered ▸ ordered_nodup store) hin
      (( needed_prefix left _).subset hmem)

theorem tenth_pos (hbelow : store.poolUsed < (whenFullMarks config.poolBytes).1) :
    0 < config.poolBytes / 10 := by
  rw [whenFullMarks, WHEN_FULL_START_PERCENT] at hbelow
  omega

/-- An upload that leaves the pool no more than a tenth above its lower mark takes nothing
unannounced. -/
theorem announced_of_tenth (hpast : (whenFullMarks config.poolBytes).2 ≤ store.poolUsed)
    (htenth : store.poolUsed + sizeBytes ≤
      (whenFullMarks config.poolBytes).2 + config.poolBytes / 10) :
    Announced config store sizeBytes := by
  intro earlier file later hsplit _ hneed
  refine ⟨hpast, ?_⟩
  have hpairwise := hsplit ▸ ordered_pairwise store
  have hlater : ((file :: later).filter fun other => decide (other.1 < file.1)) = [] := by
    rw [List.filter_cons_of_neg (by simp)]
    apply List.filter_eq_nil_iff.mpr
    intro other hmem
    rw [decide_eq_true_eq, not_lt]
    rcases (List.pairwise_cons.mp (List.pairwise_append.mp hpairwise).2.1).1 other hmem with
      hless | ⟨hsame, -⟩
    · exact hless.le
    · exact hsame.le
  have hearlier := bytes_filter_le (fun other => decide (other.1 < file.1)) earlier
  rw [hsplit, List.filter_append, hlater, List.append_nil]
  omega

end Passes

/-- "Leaving soon" tells the truth of what an upload sets off just when what goes was next in
line. -/
theorem tells_truth_iff (config : Config) (shelf : Shelf) (userId sizeBytes now : ℕ) (asked : ℤ)
    (store : Store)
    (hfull : config.fileExpiry = .whenFull)
    (hbelow : shelf.poolUsed < (whenFullMarks config.poolBytes).1)
    (haccepts : Accepts config shelf.toStore userId sizeBytes now store)
    (hmark : (whenFullMarks config.poolBytes).1 ≤ store.poolUsed) :
    TellsTruth config shelf.toStore store asked now ↔ Announced config shelf.toStore sizeBytes := by
  obtain ⟨room, hends, rfl, hmade⟩ := haccepts
  have hsized : ∀ file ∈ ordered shelf.toStore, 0 < file.2.sizeBytes := by
    intro file hfile
    obtain ⟨a, ha, htakeable, hsame⟩ := mem_ordered.mp hfile
    rw [hsame]
    exact shelf.sized _ a ha (takeable_complete htakeable)
  have hdated : ∀ file ∈ ordered shelf.toStore, (file.1 : ℤ) ≤ I64_MAX := by
    intro file hfile
    obtain ⟨a, ha, -, hsame⟩ := mem_ordered.mp hfile
    rw [hsame]
    exact shelf.dated _ a ha
  -- Room for it is made from the oldest, and the slot is no file to take yet.
  obtain ⟨first, hfirst⟩ : ∃ first, first =
      needed sizeOf (shelf.poolUsed - (config.poolBytes - sizeBytes)) (ordered shelf.toStore) :=
        ⟨_, rfl⟩
  obtain ⟨left, hordered⟩ : first <+: ordered shelf.toStore := hfirst ▸ needed_prefix _ _
  have hroom := ends_room hfull hsized hends
  have hmadeRoom : Taken shelf.toStore room first left := by
    rw [hroom, ← hfirst]
    exact taken_all first _ hordered.symm
  have hfresh : room.attachments[room.made]? = none := by
    rw [hmadeRoom.rows, hmadeRoom.made, shelf.fresh, ite_self]
  obtain ⟨hreserved, hfits⟩ := create_reserved hfresh hmade
  -- Then the pass goes on from there.
  obtain ⟨store, hstore⟩ : ∃ store, store = create config room userId sizeBytes now := ⟨_, rfl⟩
  rw [← hstore] at hmark hreserved ⊢
  have hleft : ordered store = left := hreserved.ordered.trans hmadeRoom.left
  have hfrom : ∀ file ∈ left, file ∈ ordered shelf.toStore := by
    intro file hfile
    rw [← hordered]
    exact List.mem_append_right _ hfile
  obtain ⟨second, hsecond⟩ : ∃ second, second =
      needed sizeOf (store.poolUsed - (whenFullMarks config.poolBytes).2) (ordered store) :=
        ⟨_, rfl⟩
  obtain ⟨rest, hrest⟩ : second <+: ordered store := hsecond ▸ needed_prefix _ _
  have hends : ∀ after, Ends now store (begin config store .keepRoom) after ↔
      after = takeAll store (second.map Prod.snd) := by
    intro after
    have hpass := ends_readsPool now (whenFullMarks config.poolBytes).2 after _ store rfl
      (hleft ▸ fun file hfile => hsized file (hfrom file hfile))
    rw [begin, if_pos ⟨hfull, hmark⟩, hpass, hsecond]
  have htells : TellsTruth config shelf.toStore store asked now ↔
      KeepsRoom config shelf.toStore store (takeAll store (second.map Prod.snd)) asked := by
    constructor
    · intro htells
      exact htells.2 _ ((hends _).mpr rfl)
    · intro hkeeps
      refine ⟨⟨_, (hends _).mpr rfl⟩, fun after hafter => ?_⟩
      rw [(hends after).mp hafter]
      exact hkeeps
  have htaken := taken_all second store hrest.symm
  rw [htells, keepsRoom_iff shelf.toStore hrest.symm hsecond htaken]
  have hpool : shelf.poolUsed + sizeBytes = bytes first + store.poolUsed := by
    have hbefore := hmadeRoom.pool
    have hafter := hreserved.pool
    omega
  have hmem : ∀ earlier file later, ordered shelf.toStore = earlier ++ file :: later →
      (file ∈ second ↔ shelf.poolUsed + sizeBytes ≤ config.poolBytes + bytes earlier ∧
        (whenFullMarks config.poolBytes).2 + bytes earlier < shelf.poolUsed + sizeBytes) := by
    intro earlier file later hsplit
    rw [hsecond, hleft]
    exact mem_second hsplit hordered.symm hfirst hpool (by omega)
  have hshown : ∀ file ∈ ordered shelf.toStore, _ ↔ _ := fun file hfile =>
    @shown_iff config shelf.toStore file asked hfull (tenth_pos hbelow) (hdated file hfile)
  constructor
  · intro hall earlier file later hsplit hpast hneed
    have hfile : file ∈ ordered shelf.toStore := by
      rw [hsplit]
      exact List.mem_append_right _ List.mem_cons_self
    exact (hshown file hfile).mp (hall file ((hmem earlier file later hsplit).mpr ⟨hpast, hneed⟩))
  · intro hannounced file hsecondMem
    have hfile : file ∈ ordered shelf.toStore := by
      apply hfrom file
      rw [← hleft, ← hrest]
      exact List.mem_append_left _ hsecondMem
    obtain ⟨earlier, later, hsplit⟩ := List.append_of_mem hfile
    obtain ⟨hpast, hneed⟩ := (hmem earlier file later hsplit).mp hsecondMem
    exact (hshown file hfile).mpr (hannounced earlier file later hsplit hpast hneed)

def mebibytes (n : ℕ) : ℕ := n * 1048576

/-- A pool of 600 MiB. -/
def tight : Config := ⟨.whenFull, mebibytes 600⟩

def shared (sizeBytes createdAt : ℕ) : Attachment :=
  ⟨some 0, 1, false, none, sizeBytes, none, .complete, createdAt⟩

def crowdedFiles : FMap ℕ Attachment :=
  (((∅ : FMap ℕ Attachment).insert 0 (shared (mebibytes 60) 1)).insert 1
    (shared (mebibytes 60) 2)).insert 2 (shared (mebibytes 390) 3)

theorem crowdedFiles_at {id : ℕ} {a : Attachment} (ha : crowdedFiles[id]? = some a) :
    a = shared (mebibytes 390) 3 ∨ a = shared (mebibytes 60) 2 ∨ a = shared (mebibytes 60) 1 := by
  simp only [crowdedFiles, insert_at] at ha
  split_ifs at ha
  · exact Or.inl (Option.some.inj ha).symm
  · exact Or.inr (Or.inl (Option.some.inj ha).symm)
  · exact Or.inr (Or.inr (Option.some.inj ha).symm)
  · simp at ha

/-- Two small files and a large one, all on one message. -/
def crowded : Shelf where
  attachments := crowdedFiles
  messages := (∅ : FMap ℕ Message).insert 0 ⟨none, none⟩
  pictures := []
  parts := []
  objects := []
  made := 3
  posted := 1
  begun := []
  sized := by
    intro id a ha _
    rcases crowdedFiles_at ha with rfl | rfl | rfl <;> decide
  dated := by
    intro id a ha
    rcases crowdedFiles_at ha with rfl | rfl | rfl <;> decide
  fresh := by decide +kernel

theorem tells_truth_to_the_mark :
    TellsTruth tight crowded.toStore (create tight crowded.toStore 1 (mebibytes 30) 4) 0 4 :=
  (tells_truth_iff tight crowded 1 (mebibytes 30) 4 0 _ rfl (by decide +kernel)
    ⟨crowded.toStore, by rw [if_neg (by decide +kernel)]; exact .done _, rfl, by decide +kernel⟩
      (by decide +kernel)).mpr
      (announced_of_tenth (by decide +kernel) (by decide +kernel))

/-- An upload that fills the pool takes the second file, where only the first was leaving soon. -/
theorem filling_up_takes_more : ∃ store, crowded.poolUsed < (whenFullMarks tight.poolBytes).1 ∧
    Accepts tight crowded.toStore 1 (mebibytes 90) 4 store ∧
    (whenFullMarks tight.poolBytes).1 ≤ store.poolUsed ∧
      ¬ TellsTruth tight crowded.toStore store 0 4 := by
  refine ⟨create tight crowded.toStore 1 (mebibytes 90) 4, by decide +kernel,
    ⟨crowded.toStore, by rw [if_neg (by decide +kernel)]; exact .done _,
      rfl, by decide +kernel⟩, by decide +kernel, ?_⟩
  rintro ⟨⟨after, hafter⟩, htells⟩
  have hkeeps := htells after hafter
  rw [begin, if_pos (by decide +kernel), ends_readsPool _ _ _ _ _ rfl (by decide +kernel)] at hafter
  have hgone : after.attachments[1]? = none := by
    rw [hafter]
    decide +kernel
  obtain ⟨cutoff, hcutoff, hdate⟩ :=
    hkeeps.announced 1 (shared (mebibytes 60) 2) ⟨by decide +kernel, hgone⟩
  have hfirst : leavingCutoff tight crowded.toStore 0 = some 1 := by decide +kernel
  obtain rfl : 1 = cutoff := Option.some.inj (hfirst.symm.trans hcutoff)
  exact absurd hdate (by decide)

end Linger.Uploads
