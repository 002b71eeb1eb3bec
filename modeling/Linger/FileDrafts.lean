import Linger.FiniteMap
import Linger.Names
import Linger.StepMachine

/-! Files on their way into a message: the draft each is in, what a send has taken of them, and what
the server made of them. -/
namespace Linger.FileDrafts
open FiniteMap StepMachine
open Names (Text)

section Model

structure DraftFile where
  key : ℕ
  name : Text
  progress : ℚ
  ready : Bool
  problem : Option Text
  again : Bool
  waiting : Bool
  preview : Option Text
  deriving DecidableEq

structure Held where
  conversation : ℕ
  file : DraftFile
  deriving DecidableEq

/-- Files by conversation, what the server made of each, and those a send has taken. -/
structure Drafts (α : Type) where
  draft : FMap ℕ (List DraftFile)
  uploaded : FMap ℕ α
  held : FMap ℕ Held

variable {α : Type}

def NO_DRAFTS : Drafts α := ⟨∅, ∅, ∅⟩

def filesIn (drafts : Drafts α) (conversation : ℕ) : List DraftFile :=
  (drafts.draft[conversation]?).getD []

def fresh (file : ℕ × Text) : DraftFile := ⟨file.1, file.2, 0, false, none, false, false, none⟩

def added (drafts : Drafts α) (conversation : ℕ) (files : List (ℕ × Text)) : Drafts α :=
  { drafts with
    draft := drafts.draft.insert conversation (filesIn drafts conversation ++ files.map fresh) }

def change (drafts : Drafts α) (key : ℕ) (edit : DraftFile → DraftFile) : Drafts α :=
  { drafts with draft := drafts.draft.map fun _ files =>
      if files.any fun file => file.key == key then
        files.map fun file => if file.key = key then edit file else file
      else files }

def progressed (drafts : Drafts α) (key : ℕ) (fraction : ℚ) : Drafts α :=
  change drafts key fun file => { file with progress := max file.progress (min 1 fraction) }

def DraftFile.finished (file : DraftFile) : DraftFile :=
  { file with progress := 1, ready := true, problem := none, again := false, waiting := false }

def uploaded (drafts : Drafts α) (key : ℕ) (attachment : α) : Drafts α :=
  { change drafts key DraftFile.finished with uploaded := drafts.uploaded.insert key attachment }

/-- A preview goes on its file wherever the file is. -/
def previewed (drafts : Drafts α) (key : ℕ) (preview : Text) : Option (Drafts α) :=
  match drafts.held[key]? with
  | some held =>
    some { drafts with held := drafts.held.insert key { held with
      file := { held.file with preview := some preview } } }
  | none =>
    if (vals drafts.draft).any fun files => files.any fun file => file.key == key then
      some (change drafts key fun file => { file with preview := some preview })
    else none

def waiting (drafts : Drafts α) (key : ℕ) : Drafts α :=
  change drafts key fun file => { file with waiting := true }

def DraftFile.failed (problem : Text) (again : Bool) (file : DraftFile) : DraftFile :=
  { file with problem := some problem, again := again, waiting := false }

def refused (drafts : Drafts α) (key : ℕ) (problem : Text) (again : Bool) : Drafts α :=
  change drafts key (DraftFile.failed problem again)

def retrying (drafts : Drafts α) (key : ℕ) : Drafts α :=
  change drafts key fun file =>
    { file with progress := 0, ready := false, problem := none, again := false, waiting := false }

/-- With what the server had for it. -/
def removed (drafts : Drafts α) (key : ℕ) : Drafts α × Option α :=
  (⟨drafts.draft.map fun _ files => files.filter fun file => file.key != key,
    drafts.uploaded.erase key, drafts.held.erase key⟩, drafts.uploaded[key]?)

/-- The file of a key: in this conversation's draft, or held already. -/
def fileOf (drafts : Drafts α) (conversation key : ℕ) : Option DraftFile :=
  ((filesIn drafts conversation).find? fun file => file.key == key).or
    ((drafts.held[key]?).map Held.file)

/-- The loop over a send's keys. -/
def takeKeys (drafts : Drafts α) (conversation : ℕ) :
    FMap ℕ Held → List ℕ → Option (FMap ℕ Held × List α)
  | held, [] => some (held, [])
  | held, key :: keys =>
    match drafts.uploaded[key]? with
    | none => none
    | some attachment =>
      let held := match fileOf drafts conversation key with
        | some file => held.insert key ⟨conversation, file⟩
        | none => held
      (takeKeys drafts conversation held keys).map fun (held, attachments) =>
        (held, attachment :: attachments)

def taken (drafts : Drafts α) (conversation : ℕ) (keys : List ℕ) : Option (Drafts α × List α) :=
  (takeKeys drafts conversation drafts.held keys).map fun (held, attachments) =>
    ({ drafts with
      draft := drafts.draft.insert conversation
        ((filesIn drafts conversation).filter fun file => !keys.contains file.key)
      held := held }, attachments)

def sent (drafts : Drafts α) (keys : List ℕ) : Drafts α :=
  { drafts with
    held := keys.foldl (fun held key => held.erase key) drafts.held
    uploaded := keys.foldl (fun uploaded key => uploaded.erase key) drafts.uploaded }

def restoredOne (drafts : Drafts α) (key : ℕ) : Drafts α :=
  match drafts.held[key]? with
  | none => drafts
  | some one =>
    let files := filesIn drafts one.conversation
    { drafts with
      held := drafts.held.erase key
      draft := if files.any fun file => file.key == key then drafts.draft
        else drafts.draft.insert one.conversation (files ++ [one.file]) }

def restored (drafts : Drafts α) (keys : List ℕ) : Drafts α := keys.foldl restoredOne drafts

inductive Event (α : Type) where
  | added (conversation : ℕ) (files : List (ℕ × Text))
  | progressed (key : ℕ) (fraction : ℚ)
  | uploaded (key : ℕ) (attachment : α)
  | previewed (key : ℕ) (preview : Text)
  | waiting (key : ℕ)
  | refused (key : ℕ) (problem : Text) (again : Bool)
  | retrying (key : ℕ)
  | removed (key : ℕ)
  | taken (conversation : ℕ) (keys : List ℕ)
  | sent (keys : List ℕ)
  | restored (keys : List ℕ)

def following (drafts : Drafts α) : Event α → Drafts α
  | .added conversation files => added drafts conversation files
  | .progressed key fraction => progressed drafts key fraction
  | .uploaded key attachment => uploaded drafts key attachment
  -- The drafts stay as they are where there is nothing to put it on, or the send is refused.
  | .previewed key preview => (previewed drafts key preview).getD drafts
  | .waiting key => waiting drafts key
  | .refused key problem again => refused drafts key problem again
  | .retrying key => retrying drafts key
  | .removed key => (removed drafts key).1
  | .taken conversation keys => ((taken drafts conversation keys).map Prod.fst).getD drafts
  | .sent keys => sent drafts keys
  | .restored keys => restored drafts keys

end Model

section Purpose
variable {α : Type}

/-- How an upload ended. -/
inductive Outcome where
  | finished
  | failed (problem : Text) (again : Bool)

def Outcome.edit : Outcome → DraftFile → DraftFile
  | .finished => DraftFile.finished
  | .failed problem again => DraftFile.failed problem again

/-- The window's drafts; where each key was added, which of them are neither removed nor sent, what
the server last made of each, and how uploads ended whose files a send still holds. -/
structure Window (α : Type) where
  drafts : Drafts α
  home : FMap ℕ ℕ
  live : FMap ℕ ℕ
  made : FMap ℕ α
  told : FMap ℕ Outcome

def Window.tells (st : Window α) (key : ℕ) (outcome : Outcome) : FMap ℕ Outcome :=
  if (st.drafts.held[key]?).isSome then st.told.insert key outcome else st.told

def Window.note (st : Window α) : Event α → Window α
  | .added conversation files =>
    { st with
      home := (files.map Prod.fst).foldl (fun home key => home.insert key conversation) st.home
      live := (files.map Prod.fst).foldl (fun live key => live.insert key conversation) st.live }
  | .uploaded key attachment =>
    { st with made := st.made.insert key attachment, told := st.tells key .finished }
  | .refused key problem again => { st with told := st.tells key (.failed problem again) }
  | .retrying key => { st with told := st.told.erase key }
  | .removed key =>
    { st with live := st.live.erase key, made := st.made.erase key, told := st.told.erase key }
  | .sent keys =>
    { st with
      live := keys.foldl (fun live key => live.erase key) st.live
      made := keys.foldl (fun made key => made.erase key) st.made
      told := keys.foldl (fun told key => told.erase key) st.told }
  | .restored keys => { st with told := keys.foldl (fun told key => told.erase key) st.told }
  | _ => st

def machine (α : Type) : Machine (Window α) (Event α) :=
  ⟨⟨NO_DRAFTS, ∅, ∅, ∅, ∅⟩,
    fun st event => some { st.note event with drafts := following st.drafts event }⟩

/-- Keys are fresh, and a send asks for files of its own conversation. -/
def Asked (st : Window α) : Event α → Prop
  | .added _ files => (files.map Prod.fst).Nodup ∧ ∀ key ∈ files.map Prod.fst, st.home[key]? = none
  | .taken conversation keys => ∀ key ∈ keys, st.home[key]? = some conversation
  | _ => True

/-- An upload does not end while its file is held, unless the file says so already; and a send that
gets its attachments asks for files that are there and shown ready. -/
def Spared (st : Window α) : Event α → Prop
  | .uploaded key _ => ∀ held ∈ st.drafts.held[key]?, Outcome.finished.edit held.file = held.file
  | .refused key problem again =>
    ∀ held ∈ st.drafts.held[key]?, (Outcome.failed problem again).edit held.file = held.file
  | .taken conversation keys => (∀ key ∈ keys, (st.drafts.uploaded[key]?).isSome) →
    ∀ key ∈ keys, (fileOf st.drafts conversation key).any DraftFile.ready
  | _ => True

/-- Added there, and neither removed nor sent since. -/
def Live (st : Window α) (key conversation : ℕ) : Prop := st.live[key]? = some conversation

def copies (drafts : Drafts α) (key conversation : ℕ) : List DraftFile :=
  (filesIn drafts conversation).filter fun file => file.key == key

/-- In the one conversation's draft, once, and not held. -/
def InDraft (drafts : Drafts α) (key conversation : ℕ) (file : DraftFile) : Prop :=
  drafts.held[key]? = none ∧ ∀ other, copies drafts key other = if other = conversation then [file]
    else []

/-- Held for the conversation, and in no draft. -/
def IsHeld (drafts : Drafts α) (key conversation : ℕ) (file : DraftFile) : Prop :=
  drafts.held[key]? = some ⟨conversation, file⟩ ∧ ∀ other, copies drafts key other = []

/-- Every file there should be is in one place, and what the server made of it is kept. -/
structure Placed (st : Window α) : Prop where
  one : ∀ key conversation, Live st key conversation → ∃ file : DraftFile, file.key = key ∧
    (InDraft st.drafts key conversation file ∨ IsHeld st.drafts key conversation file)
  kept : ∀ key : ℕ, st.drafts.uploaded[key]? = st.made[key]?

/-- A send is refused and changes nothing, or moves just the files it asks for and answers their
attachments in order; a file that comes back is ready, says how its upload ended and can be sent
with the same attachment. -/
def Tells (st : Window α) (after : Drafts α) : Event α → Prop
  | .taken conversation keys =>
    match taken st.drafts conversation keys with
    | none => after = st.drafts
    | some (drafts, attachments) =>
      after = drafts ∧ after.uploaded = st.drafts.uploaded ∧
        attachments.map some = keys.map (fun key => st.drafts.uploaded[key]?) ∧
        (∀ key ∈ keys, ∃ file, fileOf st.drafts conversation key = some file ∧
          after.held[key]? = some ⟨conversation, file⟩ ∧ copies after key conversation = []) ∧
        ∀ key ∉ keys, after.held[key]? = st.drafts.held[key]? ∧
          ∀ other, copies after key other = copies st.drafts key other
  | .restored keys => ∀ key ∈ keys, ∀ conversation file, Live st key conversation →
    st.drafts.held[key]? = some ⟨conversation, file⟩ →
    InDraft after key conversation file ∧ file.ready = true ∧
      (∀ outcome, st.told[key]? = some outcome → outcome.edit file = file) ∧
        ∃ attachment, st.made[key]? = some attachment ∧
          (taken after conversation [key]).map Prod.snd = some [attachment]
  | _ => True

end Purpose

section Files
variable {α : Type} {drafts : Drafts α} {key other conversation : ℕ} {keys : List ℕ}
  {file : DraftFile}

theorem filesIn_insert (drafts : Drafts α) (key : ℕ) (files : List DraftFile) (conversation : ℕ) :
    filesIn { drafts with draft := drafts.draft.insert key files } conversation =
      if conversation = key then files else filesIn drafts conversation := by
  rw [filesIn, insert_at]
  split
  · rfl
  · rfl

theorem filesIn_map (drafts : Drafts α) (f : List DraftFile → List DraftFile) (hnil : f [] = [])
    (uploaded : FMap ℕ α) (held : FMap ℕ Held) (conversation : ℕ) :
    filesIn ⟨drafts.draft.map fun _ files => f files, uploaded, held⟩ conversation =
      f (filesIn drafts conversation) := by
  rw [filesIn, filesIn, Std.ExtTreeMap.getElem?_map]
  cases drafts.draft[conversation]? with
  | none => exact hnil.symm
  | some files => rfl

theorem copies_added (drafts : Drafts α) (conversation : ℕ) (files : List (ℕ × Text))
    (key other : ℕ) :
    copies (added drafts conversation files) key other = copies drafts key other ++
      if other = conversation then (files.filter fun file => file.1 == key).map fresh else [] := by
  rw [copies, added, filesIn_insert]
  split
  · next hsame =>
    rw [List.filter_append, List.filter_map, hsame]
    rfl
  · rw [List.append_nil]
    rfl

theorem map_self {β : Type} {f : β → β} {xs : List β} (h : ∀ x ∈ xs, f x = x) : xs.map f = xs :=
  (List.map_congr_left h).trans (List.map_id xs)

/-- A change that keeps the keys touches one key's files. -/
theorem copies_change (drafts : Drafts α) (key : ℕ) (edit : DraftFile → DraftFile)
    (hedit : ∀ file, (edit file).key = file.key) (one conversation : ℕ) :
    copies (change drafts key edit) one conversation =
      if one = key then (copies drafts one conversation).map edit
        else copies drafts one conversation := by
  rw [copies, change, filesIn_map drafts _ rfl]
  obtain ⟨g, hg⟩ : ∃ g : DraftFile → DraftFile, g = fun file => if file.key = key then edit file
      else file := ⟨_, rfl⟩
  have hkey : ∀ file, (g file).key = file.key := by
    intro file
    rw [hg]
    dsimp only
    split
    · exact hedit file
    · rfl
  -- Where no file has the key, mapping changes none.
  have hmap : (if (filesIn drafts conversation).any fun file => file.key == key then
      (filesIn drafts conversation).map g else filesIn drafts conversation) =
        (filesIn drafts conversation).map g := by
    split
    · rfl
    · next hnone =>
      apply Eq.symm (map_self fun file hfile => ?_)
      rw [hg]
      dsimp only
      rw [if_neg fun hsame => hnone (List.any_eq_true.mpr ⟨file, hfile, beq_iff_eq.mpr hsame⟩)]
  rw [← hg, hmap, List.filter_map]
  have hsame : ((fun file : DraftFile => file.key == one) ∘ g) = fun file => file.key == one := by
    funext file
    rw [Function.comp_apply, hkey]
  rw [hsame]
  split
  · next hone =>
    apply List.map_congr_left
    intro file hfile
    rw [hg]
    dsimp only
    rw [if_pos ((beq_iff_eq.mp (List.mem_filter.mp hfile).2).trans hone)]
  · next hone =>
    apply map_self
    intro file hfile
    rw [hg]
    dsimp only
    rw [if_neg fun hsame => hone ((beq_iff_eq.mp (List.mem_filter.mp hfile).2).symm.trans hsame)]

theorem copies_removed (drafts : Drafts α) (key one conversation : ℕ) :
    copies (removed drafts key).1 one conversation = if one = key then []
      else copies drafts one conversation := by
  rw [copies, removed, filesIn_map drafts _ rfl, List.filter_filter]
  split
  · next hone =>
    apply List.filter_eq_nil_iff.mpr
    intro file _
    simp [hone]
  · next hone =>
    apply List.filter_congr
    intro file _
    by_cases hfile : file.key = one
    · simp [hfile, hone]
    · simp [hfile]

theorem takeKeys_some (drafts : Drafts α) (conversation : ℕ) (keys : List ℕ) :
    ∀ held held' attachments, takeKeys drafts conversation held keys = some (held', attachments) →
      attachments.map some = keys.map (fun key => drafts.uploaded[key]?) ∧ ∀ key : ℕ, held'[key]? =
        if key ∈ keys then ((fileOf drafts conversation key).map (Held.mk conversation)).or
          held[key]? else held[key]? := by
  induction keys with
  | nil =>
    intro held held' attachments hsome
    obtain ⟨rfl, rfl⟩ := Prod.mk.inj (Option.some.inj hsome)
    exact ⟨rfl, fun key => rfl⟩
  | cons first keys ih =>
    intro held held' attachments hsome
    rw [takeKeys] at hsome
    split at hsome
    · cases hsome
    · next attachment hattachment =>
      obtain ⟨⟨held'', rest⟩, hrest, hsame⟩ := Option.map_eq_some_iff.mp hsome
      obtain ⟨rfl, rfl⟩ := Prod.mk.inj hsame
      obtain ⟨hattachments, hheld⟩ := ih _ _ _ hrest
      refine ⟨?_, fun key => ?_⟩
      · rw [List.map_cons, List.map_cons, hattachments, hattachment]
      · rw [hheld]
        by_cases hfirst : key = first
        · rw [hfirst, if_pos List.mem_cons_self]
          cases fileOf drafts conversation first with
          | none => split <;> rfl
          | some file => split <;> simp
        · have hat : (match fileOf drafts conversation first with
              | some file => held.insert first ⟨conversation, file⟩
              | none => held)[key]? = held[key]? := by
            split
            · rw [insert_at, if_neg hfirst]
            · rfl
          rw [hat]
          exact if_congr (by simp [hfirst]) rfl rfl

theorem takeKeys_none (drafts : Drafts α) (conversation : ℕ) (keys : List ℕ) : ∀ held,
    takeKeys drafts conversation held keys = none ↔ ∃ key ∈ keys, drafts.uploaded[key]? = none := by
  induction keys with
  | nil => simp [takeKeys]
  | cons first keys ih =>
    intro held
    rw [takeKeys]
    split
    · next hnone => exact iff_of_true rfl ⟨first, List.mem_cons_self, hnone⟩
    · next attachment hattachment =>
      rw [Option.map_eq_none_iff, ih]
      simp only [List.mem_cons, exists_eq_or_imp, hattachment, reduceCtorEq, false_or]

theorem copies_taken {attachments : List α} {after : Drafts α}
    (htaken : taken drafts conversation keys = some (after, attachments)) (one other : ℕ) :
    copies after one other = if other = conversation ∧ one ∈ keys then []
      else copies drafts one other := by
  obtain ⟨⟨held, rest⟩, -, hsame⟩ := Option.map_eq_some_iff.mp htaken
  obtain ⟨rfl, rfl⟩ := Prod.mk.inj hsame
  have hfiles : filesIn { drafts with
      draft := drafts.draft.insert conversation
        ((filesIn drafts conversation).filter fun file => !keys.contains file.key)
      held := held } other = if other = conversation then
        (filesIn drafts conversation).filter fun file => !keys.contains file.key
          else filesIn drafts other :=
    filesIn_insert drafts conversation _ other
  rw [copies, hfiles]
  by_cases hother : other = conversation
  · rw [if_pos hother, List.filter_filter]
    split
    · next hone =>
      apply List.filter_eq_nil_iff.mpr
      intro file _ hfile
      rw [Bool.and_eq_true, beq_iff_eq] at hfile
      rw [hfile.1] at hfile
      simp [hone.2] at hfile
    · next hone =>
      rw [copies, hother]
      apply List.filter_congr
      intro file _
      by_cases hfile : file.key = one
      · have hnot : one ∉ keys := fun hmem => hone ⟨hother, hmem⟩
        simp [hfile, hnot]
      · simp [hfile]
  · rw [if_neg hother, if_neg fun hboth => hother hboth.1]
    rfl

theorem taken_some {attachments : List α} {after : Drafts α}
    (htaken : taken drafts conversation keys = some (after, attachments)) :
    attachments.map some = keys.map (fun key => drafts.uploaded[key]?) ∧
      after.uploaded = drafts.uploaded ∧ ∀ key : ℕ, after.held[key]? = if key ∈ keys then
        ((fileOf drafts conversation key).map (Held.mk conversation)).or drafts.held[key]?
          else drafts.held[key]? := by
  obtain ⟨⟨held, rest⟩, hkeys, hsame⟩ := Option.map_eq_some_iff.mp htaken
  obtain ⟨rfl, rfl⟩ := Prod.mk.inj hsame
  obtain ⟨hattachments, hheld⟩ := takeKeys_some drafts conversation keys _ _ _ hkeys
  exact ⟨hattachments, rfl, hheld⟩

theorem taken_none :
    taken drafts conversation keys = none ↔ ∃ key ∈ keys, drafts.uploaded[key]? = none := by
  rw [taken, Option.map_eq_none_iff, takeKeys_none]

/-- A send that gets its attachments asks for files that are up. -/
theorem taken_all {result : Drafts α × List α}
    (htaken : taken drafts conversation keys = some result) :
    ∀ key ∈ keys, (drafts.uploaded[key]?).isSome := by
  intro key hkey
  by_contra hnone
  rw [Option.not_isSome_iff_eq_none] at hnone
  rw [taken_none.mpr ⟨key, hkey, hnone⟩] at htaken
  cases htaken

theorem find_copies (drafts : Drafts α) (conversation key : ℕ) :
    ((filesIn drafts conversation).find? fun file => file.key == key) =
    (copies drafts key conversation).head? :=
  List.head?_filter.symm

theorem fileOf_inDraft (h : InDraft drafts key conversation file) :
    fileOf drafts conversation key = some file := by
  rw [fileOf, find_copies, h.2, if_pos rfl]
  rfl

theorem fileOf_isHeld (h : IsHeld drafts key conversation file) :
    fileOf drafts conversation key = some file := by
  rw [fileOf, find_copies, h.2, h.1]
  rfl

theorem restoredOne_rows (drafts : Drafts α) (key one : ℕ) :
    (restoredOne drafts key).uploaded = drafts.uploaded ∧
    (restoredOne drafts key).held[one]? = if one = key then none else drafts.held[one]? := by
  rw [restoredOne]
  split
  · next hnone =>
    refine ⟨rfl, ?_⟩
    split
    · next hone => rw [hone, hnone]
    · rfl
  · exact ⟨rfl, erase_at _ _ _⟩

/-- Held files are under their keys. -/
def Named (drafts : Drafts α) : Prop :=
  ∀ (key : ℕ) (held : Held), drafts.held[key]? = some held → held.file.key = key

theorem fileOf_key (hnamed : Named drafts) (hfile : fileOf drafts conversation key = some file) :
    file.key = key := by
  rw [fileOf, Option.or_eq_some_iff] at hfile
  rcases hfile with hfound | ⟨-, hheld⟩
  · simpa using List.find?_some hfound
  · obtain ⟨held, hat, rfl⟩ := Option.map_eq_some_iff.mp hheld
    exact hnamed key held hat

/-- The step of `restored` for a key brings back that key's file and no other. -/
theorem restoredOne_other (hnamed : Named drafts) {one : ℕ} (hone : one ≠ key) (other : ℕ) :
    copies (restoredOne drafts key) one other = copies drafts one other := by
  rw [restoredOne]
  split
  · rfl
  · next held hheld =>
    dsimp only
    split
    · rfl
    · rw [copies, copies]
      have hfiles := filesIn_insert { drafts with held := drafts.held.erase key } held.conversation
        (filesIn drafts held.conversation ++ [held.file]) other
      rw [hfiles]
      split
      · next hother =>
        have hnot : (held.file.key == one) = false := by
          rw [hnamed key held hheld]
          exact beq_eq_false_iff_ne.mpr hone.symm
        rw [List.filter_append, List.filter_cons, hnot, hother]
        exact List.append_nil _
      · rfl

theorem restoredOne_held (h : IsHeld drafts key conversation file) (hkey : file.key = key) :
    InDraft (restoredOne drafts key) key conversation file := by
  have hnone : ((filesIn drafts conversation).any fun file => file.key == key) = false := by
    have hcopies := h.2 conversation
    rw [copies, List.filter_eq_nil_iff] at hcopies
    exact List.any_eq_false.mpr fun file hfile => by simpa using hcopies file hfile
  have hstep : restoredOne drafts key = { drafts with
      held := drafts.held.erase key
      draft := drafts.draft.insert conversation (filesIn drafts conversation ++ [file]) } := by
    rw [restoredOne, h.1]
    dsimp only
    rw [hnone, if_neg Bool.false_ne_true]
  refine ⟨?_, fun other => ?_⟩
  · rw [hstep, erase_at, if_pos rfl]
  · have hfiles := filesIn_insert { drafts with held := drafts.held.erase key } conversation
      (filesIn drafts conversation ++ [file]) other
    rw [hstep, copies, hfiles]
    have hcopies := h.2 other
    split
    · next hother =>
      rw [copies, hother] at hcopies
      rw [List.filter_append, hcopies, List.filter_cons, hkey, beq_self_eq_true]
      rfl
    · exact hcopies

theorem restoredOne_none (hnone : drafts.held[key]? = none) : restoredOne drafts key = drafts := by
  rw [restoredOne, hnone]

theorem Named.restoredOne (hnamed : Named drafts) (key : ℕ) : Named (restoredOne drafts key) := by
  intro one held hheld
  rw [(restoredOne_rows drafts key one).2] at hheld
  split at hheld
  · cases hheld
  · exact hnamed one held hheld

theorem restored_rows (keys : List ℕ) (one : ℕ) : ∀ drafts : Drafts α,
    (restored drafts keys).uploaded = drafts.uploaded ∧
      (restored drafts keys).held[one]? = if one ∈ keys then none else drafts.held[one]? := by
  induction keys with
  | nil => exact fun drafts => ⟨rfl, rfl⟩
  | cons first keys ih =>
    intro drafts
    obtain ⟨huploaded, hheld⟩ := restoredOne_rows drafts first one
    obtain ⟨huploaded', hheld'⟩ := ih (restoredOne drafts first)
    refine ⟨huploaded'.trans huploaded, hheld'.trans ?_⟩
    rw [hheld]
    by_cases hfirst : one = first
    · simp [hfirst]
    · simp [hfirst]

/-- What is not held stays as it is. -/
theorem restored_none {one : ℕ} (keys : List ℕ) :
    ∀ drafts : Drafts α, Named drafts → drafts.held[one]? = none →
    ∀ other, copies (restored drafts keys) one other = copies drafts one other := by
  induction keys with
  | nil => exact fun drafts _ _ other => rfl
  | cons first keys ih =>
    intro drafts hnamed hnone other
    have hnone' : (restoredOne drafts first).held[one]? = none := by
      rw [(restoredOne_rows drafts first one).2, hnone, ite_self]
    have hrest := ih (restoredOne drafts first) (hnamed.restoredOne first) hnone' other
    refine hrest.trans ?_
    by_cases hfirst : one = first
    · rw [← hfirst, restoredOne_none hnone]
    · exact restoredOne_other hnamed hfirst other

theorem InDraft.restored (h : InDraft drafts key conversation file) (hnamed : Named drafts)
    (keys : List ℕ) :
    InDraft (restored drafts keys) key conversation file := by
  refine ⟨?_, fun other => ?_⟩
  · rw [(restored_rows keys key drafts).2, h.1, ite_self]
  · rw [restored_none keys drafts hnamed h.1, h.2]

theorem IsHeld.restored (hkey : file.key = key) (keys : List ℕ) :
    ∀ drafts : Drafts α, Named drafts →
    IsHeld drafts key conversation file →
    if key ∈ keys then InDraft (restored drafts keys) key conversation file
      else IsHeld (restored drafts keys) key conversation file := by
  induction keys with
  | nil => exact fun drafts _ h => h
  | cons first keys ih =>
    intro drafts hnamed h
    by_cases hfirst : key = first
    · rw [if_pos (hfirst ▸ List.mem_cons_self)]
      rw [← hfirst]
      exact (restoredOne_held h hkey).restored (hnamed.restoredOne key) keys
    · have hheld : IsHeld (restoredOne drafts first) key conversation file := by
        refine ⟨?_, fun other => ?_⟩
        · rw [(restoredOne_rows drafts first key).2, if_neg hfirst, h.1]
        · rw [restoredOne_other hnamed hfirst, h.2]
      have hrest := ih _ (hnamed.restoredOne first) hheld
      have hmem : key ∈ first :: keys ↔ key ∈ keys := by simp [hfirst]
      rw [if_congr hmem rfl rfl]
      exact hrest

end Files

section Runs
variable {α : Type} {st st' : Window α} {key conversation : ℕ} {keys : List ℕ}

/-- What every allowed step keeps. -/
structure Sound (st : Window α) : Prop where
  named : Named st.drafts
  ready : ∀ (key : ℕ) (held : Held), st.drafts.held[key]? = some held →
    held.file.ready = true ∧ (st.drafts.uploaded[key]?).isSome
  unknown : ∀ key : ℕ, st.home[key]? = none →
    st.drafts.held[key]? = none ∧ ∀ other, copies st.drafts key other = []
  homes : ∀ key conversation, Live st key conversation → st.home[key]? = some conversation
  one : ∀ key conversation, Live st key conversation → ∃ file : DraftFile, file.key = key ∧
    (InDraft st.drafts key conversation file ∨ IsHeld st.drafts key conversation file)
  kept : ∀ key : ℕ, st.drafts.uploaded[key]? = st.made[key]?
  told : ∀ key conversation held outcome, Live st key conversation →
    st.drafts.held[key]? = some held →
    st.told[key]? = some outcome → outcome.edit held.file = held.file
  quiet : ∀ key : ℕ, st.drafts.held[key]? = none → st.told[key]? = none

theorem Sound.start : Sound (machine α).start := by
  refine ⟨?_, ?_, ?_, ?_, ?_, ?_, ?_, ?_⟩
  · intro key held hheld
    simp [machine, NO_DRAFTS] at hheld
  · intro key held hheld
    simp [machine, NO_DRAFTS] at hheld
  · intro key _
    simp [machine, NO_DRAFTS, copies, filesIn]
  · intro key conversation hlive
    simp [machine, Live] at hlive
  · intro key conversation hlive
    simp [machine, Live] at hlive
  · intro key
    simp [machine, NO_DRAFTS]
  · intro key conversation file outcome hlive
    simp [machine, Live] at hlive
  · intro key _
    simp [machine]

/-- A change in the drafts leaves what is held. -/
theorem Sound.change (h : Sound st) (key : ℕ) (edit : DraftFile → DraftFile)
    (hedit : ∀ file, (edit file).key = file.key) :
    Sound { st with drafts := change st.drafts key edit } := by
  refine ⟨h.named, h.ready, ?_, h.homes, ?_, h.kept, h.told, h.quiet⟩
  · intro one hone
    obtain ⟨hheld, hcopies⟩ := h.unknown one hone
    refine ⟨hheld, fun other => ?_⟩
    rw [copies_change _ _ _ hedit, hcopies]
    exact ite_self _
  · intro one conversation hlive
    obtain ⟨file, hfile, hplace⟩ := h.one one conversation hlive
    rcases hplace with hdraft | hheld
    · refine ⟨if one = key then edit file else file, ?_, Or.inl ⟨hdraft.1, fun other => ?_⟩⟩
      · split
        · rw [hedit, hfile]
        · exact hfile
      · rw [copies_change _ _ _ hedit, hdraft.2]
        split
        · split <;> rfl
        · rfl
    · refine ⟨file, hfile, Or.inr ⟨hheld.1, fun other => ?_⟩⟩
      rw [copies_change _ _ _ hedit, hheld.2]
      exact ite_self _

theorem Sound.tells (h : Sound st) {outcome : Outcome}
    (htext : ∀ held, st.drafts.held[key]? = some held → outcome.edit held.file = held.file) :
    Sound { st with told := st.tells key outcome } := by
  refine ⟨h.named, h.ready, h.unknown, h.homes, h.one, h.kept, ?_, ?_⟩
  · intro one conversation held outcome' hlive hheld htold
    by_cases hsame : (st.drafts.held[key]?).isSome ∧ one = key
    · obtain ⟨hsome, rfl⟩ := hsame
      simp only [Window.tells, hsome, if_true, insert_at] at htold
      obtain rfl := Option.some.inj htold
      exact htext held hheld
    · have hat : (st.tells key outcome)[one]? = st.told[one]? := by
        rw [Window.tells]
        split
        · next hsome => rw [insert_at, if_neg fun hone => hsame ⟨hsome, hone⟩]
        · rfl
      exact h.told one conversation held outcome' hlive hheld (hat ▸ htold)
  · intro one hnone
    have hnone' : st.drafts.held[one]? = none := hnone
    rw [Window.tells]
    split
    · next hsome =>
      have hne : one ≠ key := by
        rintro rfl
        rw [hnone'] at hsome
        cases hsome
      rw [insert_at, if_neg hne]
      exact h.quiet one hnone
    · exact h.quiet one hnone

theorem Sound.silent (h : Sound st) (keys : List ℕ) :
    Sound { st with told := keys.foldl (fun told key => told.erase key) st.told } := by
  refine ⟨h.named, h.ready, h.unknown, h.homes, h.one, h.kept, ?_, ?_⟩
  · intro one conversation held outcome hlive hheld htold
    rw [erase_all_at] at htold
    split at htold
    · cases htold
    · exact h.told one conversation held outcome hlive hheld htold
  · intro one hnone
    rw [erase_all_at, h.quiet one hnone, ite_self]

/-- What the server made of a file is put down for it. -/
theorem Sound.makes (h : Sound st) (key : ℕ) (attachment : α) : Sound { st with
    drafts := { st.drafts with uploaded := st.drafts.uploaded.insert key attachment }
    made := st.made.insert key attachment } := by
  refine ⟨h.named, ?_, h.unknown, h.homes, h.one, ?_, h.told, h.quiet⟩
  · intro one held hheld
    refine ⟨(h.ready one held hheld).1, ?_⟩
    rw [insert_at]
    split
    · rfl
    · exact (h.ready one held hheld).2
  · intro one
    rw [insert_at, insert_at, h.kept one]

theorem Outcome.edit_preview (outcome : Outcome) (file : DraftFile) (preview : Option Text) :
    outcome.edit { file with preview := preview } =
      { outcome.edit file with preview := preview } := by
  cases outcome with
  | finished => rfl
  | failed problem again => rfl

theorem Sound.previewed (h : Sound st) (key : ℕ) (preview : Text) :
    Sound { st with drafts := (previewed st.drafts key preview).getD st.drafts } := by
  rw [FileDrafts.previewed]
  split
  · next held hheld =>
    -- Held: the file is as it was but for its preview.
    have hat : ∀ one : ℕ, (st.drafts.held.insert key { held with
        file := { held.file with preview := some preview } })[one]? =
        (st.drafts.held[one]?).map fun held =>
          if one = key then { held with file := { held.file with preview := some preview } }
            else held := by
      intro one
      rw [insert_at]
      split
      · next hone =>
        rw [hone, hheld]
        rfl
      · exact Option.map_id'.symm
    have hback : ∀ (one : ℕ) (held' : Held),
        (st.drafts.held.insert key { held with
          file := { held.file with preview := some preview } })[one]? = some held' →
        ∃ old, st.drafts.held[one]? = some old ∧ (held' = old ∨ held' =
          { old with file := { old.file with preview := some preview } }) := by
      intro one held' hheld'
      rw [hat] at hheld'
      obtain ⟨old, hold, rfl⟩ := Option.map_eq_some_iff.mp hheld'
      refine ⟨old, hold, ?_⟩
      split
      · exact Or.inr rfl
      · exact Or.inl rfl
    rw [Option.getD_some]
    -- `named`, `ready`, `unknown`, `one`, `told`, `quiet`: only a preview has changed.
    refine ⟨?_, ?_, ?_, h.homes, ?_, h.kept, ?_, ?_⟩
    · intro one held' hheld'
      obtain ⟨old, hold, rfl | rfl⟩ := hback one held' hheld'
      · exact h.named one _ hold
      · exact h.named one old hold
    · intro one held' hheld'
      obtain ⟨old, hold, rfl | rfl⟩ := hback one held' hheld'
      · exact h.ready one _ hold
      · exact h.ready one old hold
    · intro one hone
      obtain ⟨hnone, hcopies⟩ := h.unknown one hone
      refine ⟨?_, hcopies⟩
      rw [hat, hnone]
      rfl
    · intro one conversation hlive
      obtain ⟨file, hfile, hplace⟩ := h.one one conversation hlive
      rcases hplace with hdraft | hplace
      · refine ⟨file, hfile, Or.inl ⟨?_, hdraft.2⟩⟩
        rw [hat, hdraft.1]
        rfl
      · refine ⟨if one = key then { file with preview := some preview } else file, ?_,
          Or.inr ⟨?_, hplace.2⟩⟩
        · split <;> exact hfile
        · rw [hat, hplace.1, Option.map_some]
          split <;> rfl
    · intro one conversation held' outcome hlive hheld' htold
      obtain ⟨old, hold, rfl | rfl⟩ := hback one held' hheld'
      · exact h.told one conversation _ outcome hlive hold htold
      · rw [outcome.edit_preview, h.told one conversation old outcome hlive hold htold]
    · intro one hnone
      apply h.quiet one
      rw [hat, Option.map_eq_none_iff] at hnone
      exact hnone
  · split
    · exact h.change key _ fun _ => rfl
    · exact h

theorem Sound.removed (h : Sound st) (key : ℕ) :
    Sound { st with
      drafts := (removed st.drafts key).1
      live := st.live.erase key
      made := st.made.erase key
      told := st.told.erase key } := by
  have hlives : ∀ one conversation, Live { st with live := st.live.erase key } one conversation →
      one ≠ key ∧ Live st one conversation := by
    intro one conversation hlive
    rw [Live, erase_at] at hlive
    split at hlive
    · cases hlive
    · next hone => exact ⟨hone, hlive⟩
  have hback : ∀ (one : ℕ) (held : Held), (st.drafts.held.erase key)[one]? = some held →
      one ≠ key ∧ st.drafts.held[one]? = some held := by
    intro one held hheld
    rw [erase_at] at hheld
    split at hheld
    · cases hheld
    · next hone => exact ⟨hone, hheld⟩
  -- the fields in turn, of the keys that are left
  refine ⟨?_, ?_, ?_, fun one conversation hlive =>
    h.homes one conversation (hlives one conversation hlive).2, ?_, ?_, ?_, ?_⟩
  · intro one held hheld
    exact h.named one held (hback one held hheld).2
  · intro one held hheld
    obtain ⟨hone, hheld⟩ := hback one held hheld
    refine ⟨(h.ready one held hheld).1, ?_⟩
    rw [FileDrafts.removed, erase_at, if_neg hone]
    exact (h.ready one held hheld).2
  · intro one hone
    obtain ⟨hnone, hcopies⟩ := h.unknown one hone
    refine ⟨?_, fun other => ?_⟩
    · rw [FileDrafts.removed, erase_at, hnone, ite_self]
    · rw [copies_removed, hcopies, ite_self]
  · intro one conversation hlive
    obtain ⟨hne, hlive⟩ := hlives one conversation hlive
    obtain ⟨file, hfile, hplace⟩ := h.one one conversation hlive
    refine ⟨file, hfile, hplace.imp ?_ ?_⟩
    · intro hdraft
      refine ⟨?_, fun other => ?_⟩
      · rw [FileDrafts.removed, erase_at, if_neg hne, hdraft.1]
      · rw [copies_removed, if_neg hne, hdraft.2]
    · intro hheld
      refine ⟨?_, fun other => ?_⟩
      · rw [FileDrafts.removed, erase_at, if_neg hne, hheld.1]
      · rw [copies_removed, if_neg hne, hheld.2]
  · intro one
    rw [FileDrafts.removed, erase_at, erase_at, h.kept one]
  · intro one conversation held outcome hlive hheld htold
    obtain ⟨hne, hlive⟩ := hlives one conversation hlive
    rw [erase_at, if_neg hne] at htold
    exact h.told one conversation held outcome hlive (hback one held hheld).2 htold
  · intro one hnone
    rw [erase_at]
    split
    · rfl
    · next hne =>
      apply h.quiet one
      rw [FileDrafts.removed, erase_at, if_neg hne] at hnone
      exact hnone

theorem Sound.sent (h : Sound st) (keys : List ℕ) :
    Sound { st with
      drafts := sent st.drafts keys
      live := keys.foldl (fun live key => live.erase key) st.live
      made := keys.foldl (fun made key => made.erase key) st.made
      told := keys.foldl (fun told key => told.erase key) st.told } := by
  have hlives : ∀ one conversation,
      Live { st with live := keys.foldl (fun live key => live.erase key) st.live } one
      conversation → one ∉ keys ∧ Live st one conversation := by
    intro one conversation hlive
    rw [Live, erase_all_at] at hlive
    split at hlive
    · cases hlive
    · next hone => exact ⟨hone, hlive⟩
  have hheldAt : ∀ one : ℕ, (FileDrafts.sent st.drafts keys).held[one]? =
      if one ∈ keys then none else st.drafts.held[one]? := erase_all_at _ _
  have huploadedAt : ∀ one : ℕ, (FileDrafts.sent st.drafts keys).uploaded[one]? =
      if one ∈ keys then none else st.drafts.uploaded[one]? := erase_all_at _ _
  have hback : ∀ (one : ℕ) (held : Held), (FileDrafts.sent st.drafts keys).held[one]? = some held →
      one ∉ keys ∧ st.drafts.held[one]? = some held := by
    intro one held hheld
    rw [hheldAt] at hheld
    split at hheld
    · cases hheld
    · next hone => exact ⟨hone, hheld⟩
  -- the fields in turn, of the keys that were not sent
  refine ⟨?_, ?_, ?_, fun one conversation hlive =>
    h.homes one conversation (hlives one conversation hlive).2, ?_, ?_, ?_, ?_⟩
  · intro one held hheld
    exact h.named one held (hback one held hheld).2
  · intro one held hheld
    obtain ⟨hone, hheld⟩ := hback one held hheld
    refine ⟨(h.ready one held hheld).1, ?_⟩
    rw [huploadedAt, if_neg hone]
    exact (h.ready one held hheld).2
  · intro one hone
    obtain ⟨hnone, hcopies⟩ := h.unknown one hone
    refine ⟨?_, hcopies⟩
    rw [hheldAt, hnone, ite_self]
  · intro one conversation hlive
    obtain ⟨hne, hlive⟩ := hlives one conversation hlive
    obtain ⟨file, hfile, hplace⟩ := h.one one conversation hlive
    refine ⟨file, hfile, hplace.imp ?_ ?_⟩
    · intro hdraft
      refine ⟨?_, hdraft.2⟩
      rw [hheldAt, if_neg hne, hdraft.1]
    · intro hheld
      refine ⟨?_, hheld.2⟩
      rw [hheldAt, if_neg hne, hheld.1]
  · intro one
    rw [huploadedAt, erase_all_at, h.kept one]
  · intro one conversation held outcome hlive hheld htold
    obtain ⟨hne, hlive⟩ := hlives one conversation hlive
    rw [erase_all_at, if_neg hne] at htold
    exact h.told one conversation held outcome hlive (hback one held hheld).2 htold
  · intro one hnone
    rw [erase_all_at]
    split
    · rfl
    · next hne =>
      apply h.quiet one
      rw [hheldAt, if_neg hne] at hnone
      exact hnone

theorem Sound.restored (h : Sound st) (keys : List ℕ) :
    Sound { st with
      drafts := restored st.drafts keys
      told := keys.foldl (fun told key => told.erase key) st.told } := by
  have hback :
      ∀ (one : ℕ) (held : Held), (FileDrafts.restored st.drafts keys).held[one]? = some held →
      one ∉ keys ∧ st.drafts.held[one]? = some held := by
    intro one held hheld
    rw [(restored_rows keys one st.drafts).2] at hheld
    split at hheld
    · cases hheld
    · next hone => exact ⟨hone, hheld⟩
  -- the fields in turn; a restored key is held no more
  refine ⟨?_, ?_, ?_, h.homes, ?_, ?_, ?_, ?_⟩
  · intro one held hheld
    exact h.named one held (hback one held hheld).2
  · intro one held hheld
    rw [(restored_rows keys one st.drafts).1]
    exact h.ready one held (hback one held hheld).2
  · intro one hone
    obtain ⟨hnone, hcopies⟩ := h.unknown one hone
    refine ⟨?_, fun other => ?_⟩
    · rw [(restored_rows keys one st.drafts).2, hnone, ite_self]
    · rw [restored_none keys st.drafts h.named hnone, hcopies]
  -- `one`: a live key is in a draft still, or again.
  · intro one conversation hlive
    obtain ⟨file, hfile, hplace⟩ := h.one one conversation hlive
    refine ⟨file, hfile, ?_⟩
    rcases hplace with hdraft | hheld
    · exact Or.inl (hdraft.restored h.named keys)
    · have hrestored := IsHeld.restored hfile keys st.drafts h.named hheld
      split at hrestored
      · exact Or.inl hrestored
      · exact Or.inr hrestored
  · intro one
    rw [(restored_rows keys one st.drafts).1]
    exact h.kept one
  · intro one conversation held outcome hlive hheld htold
    obtain ⟨hne, hheld⟩ := hback one held hheld
    rw [erase_all_at, if_neg hne] at htold
    exact h.told one conversation held outcome hlive hheld htold
  · intro one hnone
    rw [erase_all_at]
    split
    · rfl
    · next hne =>
      apply h.quiet one
      rw [(restored_rows keys one st.drafts).2, if_neg hne] at hnone
      exact hnone

theorem filter_key {files : List (ℕ × Text)} (hnodup : (files.map Prod.fst).Nodup) {file : ℕ × Text}
    (hfile : file ∈ files) :
    (files.filter fun other => other.1 == file.1) = [file] := by
  induction files with
  | nil => cases hfile
  | cons first files ih =>
    obtain ⟨hfirst, hnodup⟩ := List.nodup_cons.mp hnodup
    rcases List.mem_cons.mp hfile with rfl | hmem
    · have hnone : (files.filter fun other => other.1 == file.1) = [] := by
        apply List.filter_eq_nil_iff.mpr
        intro other hother hsame
        exact hfirst (List.mem_map.mpr ⟨other, hother, beq_iff_eq.mp hsame⟩)
      rw [List.filter_cons, if_pos (beq_self_eq_true _), hnone]
    · have hne : ¬ (first.1 == file.1) = true := by
        intro hsame
        exact hfirst (List.mem_map.mpr ⟨file, hmem, (beq_iff_eq.mp hsame).symm⟩)
      rw [List.filter_cons, if_neg hne, ih hnodup hmem]

theorem Sound.added (h : Sound st) {files : List (ℕ × Text)}
    (hasked : Asked st (.added conversation files)) :
    Sound { st with
      drafts := added st.drafts conversation files
      home := (files.map Prod.fst).foldl (fun home key => home.insert key conversation) st.home
      live :=
        (files.map Prod.fst).foldl (fun live key => live.insert key conversation) st.live } := by
  obtain ⟨hnodup, hfresh⟩ := hasked
  -- Of a key that is not among them there is nothing new.
  have hother : ∀ one ∉ files.map Prod.fst, ∀ other,
      copies (FileDrafts.added st.drafts conversation files) one other =
        copies st.drafts one other := by
    intro one hone other
    have hnone : (files.filter fun file => file.1 == one) = [] := by
      apply List.filter_eq_nil_iff.mpr
      intro file hfile hsame
      exact hone (List.mem_map.mpr ⟨file, hfile, beq_iff_eq.mp hsame⟩)
    rw [copies_added, hnone, List.map_nil, ite_self, List.append_nil]
  have hnew : ∀ file ∈ files,
      InDraft (FileDrafts.added st.drafts conversation files) file.1 conversation (fresh file) := by
    intro file hfile
    obtain ⟨hheld, hcopies⟩ :=
      h.unknown file.1 (hfresh file.1 (List.mem_map.mpr ⟨file, hfile, rfl⟩))
    refine ⟨hheld, fun other => ?_⟩
    rw [copies_added, hcopies, filter_key hnodup hfile, List.nil_append]
    rfl
  -- `unknown` and `homes`
  refine ⟨h.named, h.ready, ?_, ?_, ?_, h.kept, ?_, h.quiet⟩
  · intro one hone
    rw [insert_all_at] at hone
    split at hone
    · cases hone
    · next hnot =>
      obtain ⟨hheld, hcopies⟩ := h.unknown one hone
      exact ⟨hheld, fun other => (hother one hnot other).trans (hcopies other)⟩
  · intro one place hlive
    rw [Live, insert_all_at] at hlive
    rw [insert_all_at]
    split at hlive
    · next hmem => rw [if_pos hmem, hlive]
    · next hnot => rw [if_neg hnot, h.homes one place hlive]
  -- `one`: a new key is in the draft it was added to.
  · intro one place hlive
    rw [Live, insert_all_at] at hlive
    split at hlive
    · next hmem =>
      obtain ⟨file, hfile, rfl⟩ := List.mem_map.mp hmem
      obtain rfl := Option.some.inj hlive
      exact ⟨fresh file, rfl, Or.inl (hnew file hfile)⟩
    · next hnot =>
      obtain ⟨file, hfile, hplace⟩ := h.one one place hlive
      refine ⟨file, hfile, hplace.imp ?_ ?_⟩
      · exact fun hdraft => ⟨hdraft.1, fun other => (hother one hnot other).trans (hdraft.2 other)⟩
      · exact fun hheld => ⟨hheld.1, fun other => (hother one hnot other).trans (hheld.2 other)⟩
  · intro one place held outcome hlive hheld htold
    rw [Live, insert_all_at] at hlive
    split at hlive
    · next hmem =>
      -- A fresh key is not held.
      have hnone : st.drafts.held[one]? = none := (h.unknown one (hfresh one hmem)).1
      rw [show st.drafts.held[one]? = some held from hheld] at hnone
      cases hnone
    · exact h.told one place held outcome hlive hheld htold

theorem Sound.taken (h : Sound st) (hasked : Asked st (.taken conversation keys))
    (hspared : Spared st (.taken conversation keys)) {after : Drafts α} {attachments : List α}
    (htaken : taken st.drafts conversation keys = some (after, attachments)) :
    Sound { st with drafts := after } := by
  obtain ⟨-, huploaded, hheldAt⟩ := taken_some htaken
  have hall := taken_all htaken
  have hready := hspared hall
  have hheld : ∀ key ∈ keys, ∃ file, fileOf st.drafts conversation key = some file ∧
      file.ready = true ∧ after.held[key]? = some ⟨conversation, file⟩ := by
    intro key hkey
    obtain ⟨file, hfile, hfileReady⟩ := (Option.any_eq_true _ _).mp (hready key hkey)
    refine ⟨file, hfile, hfileReady, ?_⟩
    rw [hheldAt, if_pos hkey, hfile]
    rfl
  have hback : ∀ (one : ℕ) (held : Held), after.held[one]? = some held → (one ∈ keys ∧
      fileOf st.drafts conversation one = some held.file ∧ held.file.ready = true) ∨
        (one ∉ keys ∧ st.drafts.held[one]? = some held) := by
    intro one held hone
    by_cases hmem : one ∈ keys
    · obtain ⟨file, hfile, hfileReady, hat⟩ := hheld one hmem
      obtain rfl := Option.some.inj (hat.symm.trans hone)
      exact Or.inl ⟨hmem, hfile, hfileReady⟩
    · rw [hheldAt, if_neg hmem] at hone
      exact Or.inr ⟨hmem, hone⟩
  -- Each field asks whether its key was just taken, or held before.
  refine ⟨?_, ?_, ?_, h.homes, ?_, ?_, ?_, ?_⟩
  · intro one held hone
    rcases hback one held hone with ⟨-, hfile, -⟩ | ⟨-, hone⟩
    · exact fileOf_key h.named hfile
    · exact h.named one held hone
  · intro one held hone
    rw [huploaded]
    rcases hback one held hone with ⟨hmem, -, hfileReady⟩ | ⟨-, hone⟩
    · exact ⟨hfileReady, hall one hmem⟩
    · exact h.ready one held hone
  · intro one hone
    obtain ⟨hnone, hcopies⟩ := h.unknown one hone
    refine ⟨?_, fun other => ?_⟩
    · have hnot : one ∉ keys := by
        intro hmem
        cases (hasked one hmem).symm.trans hone
      rw [hheldAt, if_neg hnot, hnone]
    · rw [copies_taken htaken, hcopies, ite_self]
  -- `one`: a key that was taken is held, and no draft has it.
  · intro one place hlive
    obtain ⟨file, hfile, hplace⟩ := h.one one place hlive
    refine ⟨file, hfile, ?_⟩
    by_cases hmem : one ∈ keys
    · obtain rfl : conversation = place :=
        Option.some.inj ((hasked one hmem).symm.trans (h.homes one place hlive))
      obtain ⟨file', hfile', -, hat⟩ := hheld one hmem
      refine Or.inr ⟨?_, fun other => ?_⟩
      · rw [hat]
        rcases hplace with hdraft | hplace
        · rw [fileOf_inDraft hdraft] at hfile'
          rw [Option.some.inj hfile']
        · rw [fileOf_isHeld hplace] at hfile'
          rw [Option.some.inj hfile']
      · rw [copies_taken htaken]
        split
        · rfl
        · next hother =>
          rcases hplace with hdraft | hplace
          · rw [hdraft.2, if_neg fun hsame => hother ⟨hsame, hmem⟩]
          · exact hplace.2 other
    · have hcopies : ∀ other, copies after one other = copies st.drafts one other := by
        intro other
        rw [copies_taken htaken, if_neg fun hboth => hmem hboth.2]
      have hsame : after.held[one]? = st.drafts.held[one]? := by rw [hheldAt, if_neg hmem]
      refine hplace.imp ?_ ?_
      · exact fun hdraft =>
          ⟨hsame.trans hdraft.1, fun other => (hcopies other).trans (hdraft.2 other)⟩
      · exact fun hplace =>
          ⟨hsame.trans hplace.1, fun other => (hcopies other).trans (hplace.2 other)⟩
  · intro one
    rw [huploaded]
    exact h.kept one
  -- `told`
  · intro one place held outcome hlive hone htold
    rcases hback one held hone with ⟨hmem, hfile, -⟩ | ⟨-, hone⟩
    · obtain ⟨file, -, hplace⟩ := h.one one place hlive
      rcases hplace with hdraft | hplace
      · -- Nothing is told of a file in a draft.
        have hquiet : st.told[one]? = none := h.quiet one hdraft.1
        rw [show st.told[one]? = some outcome from htold] at hquiet
        cases hquiet
      · obtain rfl : conversation = place :=
          Option.some.inj ((hasked one hmem).symm.trans (h.homes one place hlive))
        rw [fileOf_isHeld hplace] at hfile
        rw [← Option.some.inj hfile]
        exact h.told one conversation _ outcome hlive hplace.1 htold
    · exact h.told one place held outcome hlive hone htold
  · intro one hnone
    apply h.quiet one
    by_cases hmem : one ∈ keys
    · obtain ⟨file, -, -, hat⟩ := hheld one hmem
      rw [hat] at hnone
      cases hnone
    · rw [hheldAt, if_neg hmem] at hnone
      exact hnone

variable {event : Event α}

theorem Sound.step (h : Sound st) (hasked : Asked st event) (hspared : Spared st event)
    (hs : (machine α).step st event = some st') : Sound st' := by
  obtain rfl := Option.some.inj hs
  cases event with
  | added conversation files => exact h.added hasked
  | progressed key fraction => exact h.change key _ fun _ => rfl
  | uploaded key attachment =>
    have hfinished := h.change key DraftFile.finished fun _ => rfl
    exact (hfinished.makes key attachment).tells hspared
  | previewed key preview => exact h.previewed key preview
  | waiting key => exact h.change key _ fun _ => rfl
  | refused key problem again =>
    exact (h.change key (DraftFile.failed problem again) fun _ => rfl).tells hspared
  | retrying key =>
    have hfresh := h.change key (fun file => { file with
      progress := 0, ready := false, problem := none, again := false, waiting := false }) fun _ =>
        rfl
    exact hfresh.silent [key]
  | removed key => exact h.removed key
  | taken conversation keys =>
    dsimp only [Window.note, following]
    cases htaken : FileDrafts.taken st.drafts conversation keys with
    | none => exact h
    | some result => exact h.taken hasked hspared htaken
  | sent keys => exact h.sent keys
  | restored keys => exact h.restored keys

theorem Sound.placed (h : Sound st) : Placed st := ⟨h.one, h.kept⟩

theorem Sound.tellsTrue (h : Sound st) (hspared : Spared st event)
    (hs : (machine α).step st event = some st') :
    Tells st st'.drafts event := by
  obtain rfl := Option.some.inj hs
  cases event with
  | taken conversation keys =>
    rw [Tells]
    dsimp only [Window.note, following]
    cases htaken : FileDrafts.taken st.drafts conversation keys with
    | none => rfl
    | some result =>
      obtain ⟨after, attachments⟩ := result
      obtain ⟨hattachments, huploaded, hheld⟩ := taken_some htaken
      refine ⟨rfl, huploaded, hattachments, ?_, ?_⟩
      · intro key hkey
        obtain ⟨file, hfile, -⟩ := (Option.any_eq_true _ _).mp (hspared (taken_all htaken) key hkey)
        refine ⟨file, hfile, ?_, ?_⟩
        · rw [Option.map_some, Option.getD_some, hheld, if_pos hkey, hfile]
          rfl
        · exact (copies_taken htaken key conversation).trans (if_pos ⟨rfl, hkey⟩)
      · intro key hkey
        refine ⟨(hheld key).trans (if_neg hkey), fun other => ?_⟩
        exact (copies_taken htaken key other).trans (if_neg fun hboth => hkey hboth.2)
  | restored keys =>
    intro key hkey conversation file hlive hheld
    have hplace : IsHeld st.drafts key conversation file := by
      obtain ⟨file', -, hplace⟩ := h.one key conversation hlive
      rcases hplace with hdraft | hplace
      · cases hdraft.1.symm.trans hheld
      · exact ⟨hheld, hplace.2⟩
    have hrestored := IsHeld.restored (h.named key _ hheld) keys st.drafts h.named hplace
    rw [if_pos hkey] at hrestored
    obtain ⟨hready, huploaded⟩ := h.ready key _ hheld
    obtain ⟨attachment, hattachment⟩ := Option.isSome_iff_exists.mp huploaded
    refine ⟨hrestored, hready, fun outcome => h.told key conversation _ outcome hlive hheld,
      attachment, ?_, ?_⟩
    · rw [← h.kept key, hattachment]
    · have hat : (FileDrafts.restored st.drafts keys).uploaded[key]? = some attachment := by
        rw [(restored_rows keys key st.drafts).1, hattachment]
      show (FileDrafts.taken (FileDrafts.restored st.drafts keys) conversation [key]).map Prod.snd =
          _
      rw [FileDrafts.taken, takeKeys, hat]
      rfl
  | _ => exact trivial

end Runs

/-- In every run whose steps are spared, each file is in its one place and what was made of it kept,
and the next send or return does what it should. -/
theorem files_kept {α : Type} {events : List (Event α)} {st : Window α}
    (hmeets : (machine α).Meets (fun st event => Asked st event ∧ Spared st event) events)
    (hrun : (machine α).run events = some st) :
    Placed st ∧ ∀ event after, Asked st event → Spared st event →
      (machine α).step st event = some after → Tells st after.drafts event := by
  have hsound : Sound st :=
    (machine α).invariant_of_meets Sound.start
      (fun st event after h hok hs => h.step hok.1 hok.2 hs) hmeets hrun
  exact ⟨hsound.placed, fun event after _ hspared hs => hsound.tellsTrue hspared hs⟩

instance {α : Type} (st : Window α) (event : Event α) : Decidable (Asked st event) :=
  match event with
  | .added _ _ => inferInstanceAs (Decidable (_ ∧ _))
  | .taken _ _ => inferInstanceAs (Decidable (∀ key ∈ _, _))
  | .uploaded _ _ | .refused _ _ _ | .progressed _ _ | .previewed _ _ | .waiting _ | .retrying
      _ | .removed _ | .sent _
  | .restored _ => inferInstanceAs (Decidable True)

instance {α : Type} (st : Window α) (event : Event α) : Decidable (Spared st event) :=
  match event with
  | .uploaded _ _ => inferInstanceAs (Decidable (∀ held ∈ _, _))
  | .refused _ _ _ => inferInstanceAs (Decidable (∀ held ∈ _, _))
  | .taken _ _ => inferInstanceAs (Decidable (_ → _))
  | .added _ _ | .progressed _ _ | .previewed _ _ | .waiting _ | .retrying _ | .removed _ | .sent
      _ | .restored _ =>
    inferInstanceAs (Decidable True)

/-- Two files go up, one fails first, and a send takes both and gives them back. -/
def sendingTwo : List (Event ℕ) :=
  [.added 7 [(1, ['a']), (2, ['b'])], .uploaded 1 11, .refused 2 ['n', 'o'] true,
    .retrying 2, .uploaded 2 12, .taken 7 [2, 1], .previewed 1 ['p']]

theorem files_kept_sendingTwo : ∃ st, (machine ℕ).run sendingTwo = some st ∧ Placed st ∧
    Tells st (restored st.drafts [1, 2]) (.restored [1, 2]) := by
  refine ⟨_, rfl, ?_⟩
  have hkept := @files_kept ℕ sendingTwo _ (by decide +kernel) rfl
  exact ⟨hkept.1, hkept.2 (.restored [1, 2]) _ trivial trivial rfl⟩

/-- A file that is sent again after it was up is taken all the same, and comes back as if it had
never gone up. -/
def retriedTooLate : List (Event ℕ) :=
  [.added 7 [(1, ['a'])], .uploaded 1 11, .retrying 1, .taken 7 [1], .uploaded 1 12]

theorem held_file_not_told : ∃ st after, (machine ℕ).Meets Asked retriedTooLate ∧
    (machine ℕ).run retriedTooLate = some st ∧ Asked st (.restored [1]) ∧
      (machine ℕ).step st (.restored [1]) = some after ∧
      ¬ Tells st after.drafts (.restored [1]) := by
  refine ⟨_, _, by decide +kernel, rfl, trivial, rfl, fun htells => ?_⟩
  have hone := htells 1 List.mem_cons_self 7 ⟨1, ['a'], 0, false, none, false, false,
    none⟩ rfl (by decide +kernel)
  exact absurd hone.2.1 Bool.false_ne_true

end Linger.FileDrafts
