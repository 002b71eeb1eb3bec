import Mathlib.Algebra.Order.Ring.Nat
import Mathlib.Algebra.Order.Sub.Basic
import Mathlib.Data.Nat.SuccPred
import Linger.Names
import Linger.KeyedLists
import Linger.Trimming

/-! A status's labelled fields, and what a save from an app that knows only the three classic ones
makes of them. -/
namespace Linger.StatusFields
open Names (Text trim)
open KeyedLists
open Trimming

local instance textLawful : LawfulBEq (List Char) := inferInstance

section Code

structure StatusField where
  label : Text
  value : Text
  deriving DecidableEq

def MAX_STATUS_FIELDS : ℕ := 3
def STATUS_LABEL_LISTENING : Text := "Listening to".toList
def STATUS_LABEL_READING : Text := "Reading".toList
def STATUS_LABEL_WORKING_ON : Text := "Working on".toList

/-- The three keys an older app reads and sends. -/
structure Classic where
  listening : Option Text
  reading : Option Text
  workingOn : Option Text
  deriving DecidableEq

def classicOf (fields : List StatusField) : Classic :=
  let find (label : Text) := (fields.find? fun field => field.label = label).map StatusField.value
  ⟨find STATUS_LABEL_LISTENING, find STATUS_LABEL_READING, find STATUS_LABEL_WORKING_ON⟩

/-- A value sent, trimmed; an empty one is none. -/
def trimmed (value : Option Text) : Option Text :=
  (value.map trim).filter fun value => !value.isEmpty

/-- The three labels, in the order a card shows them, each with what is sent for it. -/
def sent (status : Classic) : List (Text × Option Text) :=
  [(STATUS_LABEL_LISTENING, trimmed status.listening),
    (STATUS_LABEL_READING, trimmed status.reading),
    (STATUS_LABEL_WORKING_ON, trimmed status.workingOn)]

/-- One turn of the loop: the fields as they are now, and what is to be added. -/
def applyOne (held : List StatusField × List StatusField) (send : Text × Option Text) :
    List StatusField × List StatusField :=
  let (fields, adding) := held
  let (label, value) := send
  match fields.findIdx? fun field => field.label = label, value with
  | some place, some value =>
    (fields.modify place fun field => { field with value := value }, adding)
  | some place, none => (fields.eraseIdx place, adding)
  | none, some value => (fields, adding ++ [⟨label, value⟩])
  | none, none => (fields, adding)

def tooMany : String :=
  "Your status already has three fields. Clear one in a newer version of Linger first."

def applyClassic (fields : List StatusField) (status : Classic) :
    Except String (List StatusField) :=
  let (fields, adding) := (sent status).foldl applyOne (fields, [])
  if MAX_STATUS_FIELDS < fields.length + adding.length then .error tooMany
    else .ok (fields ++ adding)

/-- The fields of one status, as they are stored. -/
structure Stored where
  fields : List StatusField
  distinct : (fields.map StatusField.label).Nodup
  few : fields.length ≤ MAX_STATUS_FIELDS

end Code

section Purpose

/-- The classic labels, in the order of a card. -/
def card : List Text := [STATUS_LABEL_LISTENING, STATUS_LABEL_READING, STATUS_LABEL_WORKING_ON]

/-- A field after these have been sent: what was sent for its label is in its place, or it goes;
another stays. -/
def settled (sends : List (Text × Option Text)) (field : StatusField) : Option StatusField :=
  match sends.lookup field.label with
  | some value => value.map fun value => { field with value := value }
  | none => some field

/-- What these add, of labels that no field has. -/
def added (sends : List (Text × Option Text)) (fields : List StatusField) : List StatusField :=
  sends.filterMap fun send => if send.1 ∈ fields.map StatusField.label then none
    else send.2.map (⟨send.1, ·⟩)

def saved (fields : List StatusField) (status : Classic) : List StatusField :=
  fields.filterMap (settled (sent status)) ++ added (sent status) fields

/-- What a save may make of the fields held: the three are as sent, in their places or last, and no
other is touched. -/
structure TouchesThree (held : List StatusField) (status : Classic) (fields : List StatusField) :
    Prop where
  distinct : (fields.map StatusField.label).Nodup
  few : fields.length ≤ MAX_STATUS_FIELDS
  others :
    (fields.filter fun field => field.label ∉ card) = held.filter fun field => field.label ∉ card
  places : ∃ last : List StatusField, fields = held.filterMap (settled (sent status)) ++ last ∧
    (last.map StatusField.label).Sublist card ∧
    ∀ field ∈ last, field.label ∉ held.map StatusField.label
  read :
    classicOf fields = ⟨trimmed status.listening, trimmed status.reading, trimmed status.workingOn⟩

/-- Three values with nothing to trim off. -/
def Tidy (fields : List StatusField) : Prop :=
  ∀ field ∈ fields, field.label ∈ card → trim field.value = field.value ∧ field.value ≠ []

/-- What an older app's save comes to, and saving back what it reads. -/
structure OlderSave (stored : Stored) (status : Classic) : Prop where
  refused : ∀ why, applyClassic stored.fields status = .error why →
    MAX_STATUS_FIELDS < (saved stored.fields status).length
  kept : ∀ fields, applyClassic stored.fields status = .ok fields →
    TouchesThree stored.fields status fields
  back : applyClassic stored.fields (classicOf stored.fields) = .ok stored.fields ↔
    Tidy stored.fields
  tidy : ∀ fields, applyClassic stored.fields status = .ok fields → Tidy fields

end Purpose

section Turns
variable {fields before after adding : List StatusField} {field : StatusField} {label : Text}
  {value : Option Text}
  {sends : List (Text × Option Text)}

theorem settled_other (hother : ∀ send ∈ sends, send.1 ≠ field.label) :
    settled sends field = some field := by
  have hnone : sends.lookup field.label = none := by
    rw [List.lookup_eq_none_iff]
    intro send hsend
    simpa using (hother send hsend).symm
  rw [settled, hnone]

theorem filterMap_others (hothers : ∀ field ∈ fields, ∀ send ∈ sends, send.1 ≠ field.label) :
    fields.filterMap (settled sends) = fields := by
  calc fields.filterMap (settled sends)
    _ = fields.filterMap some :=
      List.filterMap_congr fun field hfield => settled_other (hothers field hfield)
    _ = fields := List.filterMap_some

/-- A label's field, found, is the only one with it. -/
theorem place_cases (hdistinct : (fields.map StatusField.label).Nodup) (label : Text) :
    (label ∉ fields.map StatusField.label ∧
      fields.findIdx? (fun field => field.label = label) = none) ∨
      ∃ before field after, fields = before ++ field :: after ∧ field.label = label ∧
        fields.findIdx? (fun field => field.label = label) = some before.length ∧
          (∀ other ∈ before, other.label ≠ label) ∧ ∀ other ∈ after, other.label ≠ label := by
  by_cases hheld : label ∈ fields.map StatusField.label
  · right
    obtain ⟨field, hfield, rfl⟩ := List.mem_map.mp hheld
    obtain ⟨before, after, rfl, hbefore, hafter⟩ := around hdistinct hfield
    exact ⟨before, field, after, rfl, rfl, findIdx?_key hbefore, hbefore, hafter⟩
  · left
    refine ⟨hheld, List.findIdx?_eq_none_iff.mpr ?_⟩
    intro field hfield
    have hne : field.label ≠ label := fun hsame => hheld (hsame ▸ List.mem_map_of_mem hfield)
    simpa using hne

theorem added_one (fields : List StatusField) (label : Text) (value : Option Text) :
    added [(label, value)] fields =
      if label ∈ fields.map StatusField.label then []
        else (value.map (StatusField.mk label)).toList := by
  rw [added, List.filterMap_cons, List.filterMap_nil]
  by_cases hheld : label ∈ fields.map StatusField.label
  · simp only [if_pos hheld]
  · simp only [if_neg hheld]
    cases value <;> rfl

/-- What one turn does. -/
theorem applyOne_eq (hdistinct : (fields.map StatusField.label).Nodup) (adding : List StatusField)
    (label : Text)
    (value : Option Text) :
    applyOne (fields, adding) (label, value) =
      (fields.filterMap (settled [(label, value)]), adding ++ added [(label, value)] fields) := by
  rcases place_cases hdistinct label with
    ⟨hnot, hnone⟩ | ⟨before, field, after, rfl, hlabel, hfound, hbefore, hafter⟩
  · have hothers : fields.filterMap (settled [(label, value)]) = fields := by
      apply filterMap_others
      intro field hfield send hsend hsame
      rw [List.mem_singleton.mp hsend] at hsame
      apply hnot
      rw [show label = field.label from hsame]
      exact List.mem_map_of_mem hfield
    rw [hothers]
    cases value with
    | none => simp [applyOne, hnone, added]
    | some value =>
      have hturn :
          applyOne (fields, adding) (label, some value) = (fields, adding ++ [⟨label, value⟩]) := by
        simp only [applyOne, hnone]
      rw [hturn, added_one, if_neg hnot, Option.map_some, Option.toList_some]
  · have hothers : ∀ others : List StatusField, (∀ other ∈ others, other.label ≠ label) →
        others.filterMap (settled [(label, value)]) = others := by
      intro others hne
      apply filterMap_others
      intro other hother send hsend hsame
      rw [List.mem_singleton.mp hsend] at hsame
      exact hne other hother hsame.symm
    have hadded : added [(label, value)] (before ++ field :: after) = [] := by
      rw [added_one, if_pos (by simp [hlabel])]
    rw [hadded, List.append_nil, List.filterMap_append, hothers before hbefore, List.filterMap_cons,
      hothers after hafter]
    cases value with
    | none =>
      have herase : (before ++ field :: after).eraseIdx before.length = before ++ after := by
        rw [List.eraseIdx_append_of_length_le le_rfl, Nat.sub_self, List.eraseIdx_cons_zero]
      simp [applyOne, hfound, herase, settled, hlabel]
    | some value =>
      have hmodify : (before ++ field :: after).modify before.length
          (fun field => { field with value := value }) =
          before ++ { field with value := value } :: after := by
        rw [List.modify_eq_set_getElem?]
        simp
      simp [applyOne, hfound, hmodify, settled, hlabel]

theorem settled_label {kept : StatusField} (h : settled sends field = some kept) :
    kept.label = field.label := by
  rw [settled] at h
  split at h
  · obtain ⟨value, -, rfl⟩ := Option.map_eq_some_iff.mp h
    rfl
  · rw [Option.some.inj h]

/-- What stays keeps its label and its place. -/
theorem labels_sublist (sends : List (Text × Option Text)) (fields : List StatusField) :
    ((fields.filterMap (settled sends)).map StatusField.label).Sublist
    (fields.map StatusField.label) := by
  induction fields with
  | nil => exact List.Sublist.slnil
  | cons field fields ih =>
    rw [List.filterMap_cons]
    cases hkept : settled sends field with
    | none => exact ih.cons _
    | some kept =>
      rw [List.map_cons, List.map_cons, settled_label hkept]
      exact ih.cons_cons _

theorem settled_twice (hnot : ∀ send ∈ sends, send.1 ≠ label) (field : StatusField) :
    (settled [(label, value)] field).bind (settled sends) =
    settled ((label, value) :: sends) field := by
  by_cases hlabel : field.label = label
  · cases value with
    | none => simp [settled, hlabel]
    | some value =>
      have hother :
          settled sends { field with value := value } = some { field with value := value } := by
        apply settled_other
        intro send hsend
        rw [hlabel]
        exact hnot send hsend
      simp [settled, hlabel] at hother ⊢
      exact hother
  · have hbeq : (field.label == label) = false := beq_false_of_ne hlabel
    simp [settled, List.lookup_cons, hbeq]

theorem added_settled (hnot : ∀ send ∈ sends, send.1 ≠ label) (fields : List StatusField)
    (value : Option Text) :
    added sends (fields.filterMap (settled [(label, value)])) = added sends fields := by
  apply List.filterMap_congr
  intro send hsend
  have hsame : send.1 ∈ (fields.filterMap (settled [(label, value)])).map StatusField.label ↔
      send.1 ∈ fields.map StatusField.label := by
    constructor
    · exact fun hheld => (labels_sublist _ fields).subset hheld
    · intro hheld
      obtain ⟨field, hfield, hlabel⟩ := List.mem_map.mp hheld
      have hkept : settled [(label, value)] field = some field := by
        apply settled_other
        intro other hother hsame
        rw [List.mem_singleton.mp hother] at hsame
        exact hnot send hsend (hlabel.symm.trans hsame.symm)
      exact List.mem_map.mpr ⟨field, List.mem_filterMap.mpr ⟨field, hfield, hkept⟩, hlabel⟩
  simp only [hsame]

/-- What all the turns do, of labels that are each sent once. -/
theorem foldl_applyOne (hsends : (sends.map Prod.fst).Nodup) : ∀ fields adding,
    (fields.map StatusField.label).Nodup →
    sends.foldl applyOne (fields, adding) =
      (fields.filterMap (settled sends), adding ++ added sends fields) := by
  induction sends with
  | nil =>
    intro fields adding _
    have hsame : fields.filterMap (settled []) = fields := filterMap_others (by simp)
    rw [List.foldl_nil, hsame, added, List.filterMap_nil, List.append_nil]
  | cons send sends ih =>
    intro fields adding hdistinct
    obtain ⟨label, value⟩ := send
    rw [List.map_cons, List.nodup_cons] at hsends
    have hnot : ∀ send ∈ sends, send.1 ≠ label := by
      intro send hsend hsame
      exact hsends.1 (List.mem_map.mpr ⟨send, hsend, hsame⟩)
    have hturn : (fields.filterMap (settled [(label, value)])).filterMap (settled sends) =
        fields.filterMap (settled ((label, value) :: sends)) := by
      rw [List.filterMap_filterMap]
      exact List.filterMap_congr fun field _ => settled_twice hnot field
    have hadded : added [(label, value)] fields ++ added sends fields =
        added ((label, value) :: sends) fields := by
      rw [added, added, added, ← List.filterMap_append]
      rfl
    rw [List.foldl_cons, applyOne_eq hdistinct,
      ih hsends.2 _ _ (hdistinct.sublist (labels_sublist _ fields)), hturn,
      added_settled hnot, List.append_assoc, hadded]

end Turns

section Saved
variable {fields : List StatusField} {field : StatusField} {status : Classic} {label : Text}
  {value : Option Text}
  {sends : List (Text × Option Text)}

theorem sent_labels (status : Classic) : (sent status).map Prod.fst = card := rfl

theorem card_nodup : card.Nodup := by decide

theorem applyClassic_eq (hdistinct : (fields.map StatusField.label).Nodup) (status : Classic) :
    applyClassic fields status =
      if MAX_STATUS_FIELDS < (saved fields status).length then .error tooMany
        else .ok (saved fields status) := by
  have hturns := foldl_applyOne (sent_labels status ▸ card_nodup) fields [] hdistinct
  rw [applyClassic, hturns, List.nil_append, saved, List.length_append]

theorem added_label (hfield : field ∈ added sends fields) :
    field.label ∉ fields.map StatusField.label ∧ (field.label, some field.value) ∈ sends := by
  obtain ⟨send, hsend, hadd⟩ := List.mem_filterMap.mp hfield
  split_ifs at hadd with hheld
  obtain ⟨value, hvalue, rfl⟩ := Option.map_eq_some_iff.mp hadd
  refine ⟨hheld, ?_⟩
  rw [← hvalue]
  exact hsend

theorem added_sublist (sends : List (Text × Option Text)) (fields : List StatusField) :
    ((added sends fields).map StatusField.label).Sublist (sends.map Prod.fst) := by
  induction sends with
  | nil => exact List.Sublist.slnil
  | cons send sends ih =>
    rw [added, List.filterMap_cons]
    split
    · exact ih.cons _
    · next field hadd =>
      split_ifs at hadd
      obtain ⟨value, -, rfl⟩ := Option.map_eq_some_iff.mp hadd
      exact ih.cons_cons _

theorem saved_nodup (hdistinct : (fields.map StatusField.label).Nodup) (status : Classic) :
    ((saved fields status).map StatusField.label).Nodup := by
  have hkept := labels_sublist (sent status) fields
  rw [saved, List.map_append, List.nodup_append]
  refine ⟨hdistinct.sublist hkept, card_nodup.sublist (added_sublist (sent status) fields), ?_⟩
  intro label hlabel other hother hsame
  obtain ⟨field, hfield, rfl⟩ := List.mem_map.mp hother
  exact (added_label hfield).1 (hsame ▸ hkept.subset hlabel)

theorem sent_of_card (hlabel : label ∈ card) (status : Classic) :
    ∃ value, (label, value) ∈ sent status := by
  rw [← sent_labels status] at hlabel
  obtain ⟨send, hsend, rfl⟩ := List.mem_map.mp hlabel
  exact ⟨send.2, hsend⟩

theorem card_of_sent (hsend : (label, value) ∈ sent status) : label ∈ card := by
  rw [← sent_labels status]
  exact List.mem_map_of_mem hsend

theorem lookup_sent (hsend : (label, value) ∈ sent status) :
    (sent status).lookup label = some value := by
  have hnodup : ((sent status).map Prod.fst).Nodup := by
    rw [sent_labels]
    exact card_nodup
  generalize sent status = sends at hsend hnodup
  induction sends with
  | nil => cases hsend
  | cons send sends ih =>
    rw [List.map_cons, List.nodup_cons] at hnodup
    rcases List.mem_cons.mp hsend with rfl | hsend
    · exact List.lookup_cons_self
    · have hne : label ≠ send.1 := by
        rintro rfl
        exact hnodup.1 (List.mem_map.mpr ⟨(send.1, value), hsend, rfl⟩)
      rw [List.lookup_cons, beq_false_of_ne hne]
      exact ih hsend hnodup.2

theorem settled_of_sent (hsend : (field.label, value) ∈ sent status) :
    settled (sent status) field = value.map fun value => { field with value := value } := by
  rw [settled, lookup_sent hsend]

theorem filter_settled (fields : List StatusField) (status : Classic) :
    ((fields.filterMap (settled (sent status))).filter fun field => field.label ∉ card) =
      fields.filter fun field => field.label ∉ card := by
  induction fields with
  | nil => rfl
  | cons field fields ih =>
    by_cases hcard : field.label ∈ card
    · obtain ⟨value, hsend⟩ := sent_of_card hcard status
      rw [List.filterMap_cons, settled_of_sent hsend,
        List.filter_cons_of_neg (by simpa using hcard)]
      cases value with
      | none => exact ih
      | some value =>
        dsimp only [Option.map_some]
        rw [List.filter_cons_of_neg (by simpa using hcard)]
        exact ih
    · have hother : settled (sent status) field = some field := by
        apply settled_other
        intro send hsend hsame
        exact hcard (hsame ▸ card_of_sent hsend)
      rw [List.filterMap_cons, hother, List.filter_cons_of_pos (by simpa using hcard),
        List.filter_cons_of_pos (by simpa using hcard)]
      exact congrArg _ ih

/-- Other fields are as they were, in the order they were in. -/
theorem others_kept (fields : List StatusField) (status : Classic) :
    ((saved fields status).filter fun field => field.label ∉ card) = fields.filter fun field =>
    field.label ∉ card := by
  have hadded : ((added (sent status) fields).filter fun field => field.label ∉ card) = [] := by
    rw [List.filter_eq_nil_iff]
    intro field hfield
    simpa using card_of_sent (added_label hfield).2
  rw [saved, List.filter_append, hadded, List.append_nil, filter_settled]

/-- Under each label that was sent, what was sent for it is found. -/
theorem find_saved (hdistinct : (fields.map StatusField.label).Nodup)
    (hsend : (label, value) ∈ sent status) :
    ((saved fields status).find? fun field => field.label = label).map StatusField.value =
    value := by
  cases value with
  | none =>
    have hnone : (saved fields status).find? (fun field => field.label = label) = none := by
      rw [List.find?_eq_none]
      intro field hfield hlabel
      have hlabel : field.label = label := by simpa using hlabel
      rcases List.mem_append.mp hfield with hkept | hadd
      · obtain ⟨held, -, hsettled⟩ := List.mem_filterMap.mp hkept
        have hsame : held.label = label := (settled_label hsettled).symm.trans hlabel
        subst hsame
        rw [settled_of_sent hsend] at hsettled
        cases hsettled
      · have hsent := lookup_sent (added_label hadd).2
        rw [hlabel, lookup_sent hsend] at hsent
        cases hsent
    rw [hnone]
    rfl
  | some value =>
    have hmem : (⟨label, value⟩ : StatusField) ∈ saved fields status := by
      by_cases hheld : label ∈ fields.map StatusField.label
      · obtain ⟨field, hfield, rfl⟩ := List.mem_map.mp hheld
        exact List.mem_append_left _ (List.mem_filterMap.mpr ⟨field, hfield, settled_of_sent hsend⟩)
      · apply List.mem_append_right
        refine List.mem_filterMap.mpr ⟨_, hsend, ?_⟩
        rw [if_neg hheld]
        rfl
    rw [find?_key (saved_nodup hdistinct status) hmem]
    rfl

theorem classicOf_saved (hdistinct : (fields.map StatusField.label).Nodup) (status : Classic) :
    classicOf (saved fields status) =
      ⟨trimmed status.listening, trimmed status.reading, trimmed status.workingOn⟩ := by
  have hfound : ∀ label value, (label, value) ∈ sent status →
      ((saved fields status).find? fun field => field.label = label).map StatusField.value =
        value :=
    fun _ _ hsend => find_saved hdistinct hsend
  have hlistening := hfound _ (trimmed status.listening) List.mem_cons_self
  have hreading := hfound _ (trimmed status.reading) (List.mem_cons_of_mem _ List.mem_cons_self)
  have hworkingOn := hfound _ (trimmed status.workingOn)
    (List.mem_cons_of_mem _ (List.mem_cons_of_mem _ List.mem_cons_self))
  dsimp only [classicOf]
  rw [hlistening, hreading, hworkingOn]

end Saved

section Back
variable {fields : List StatusField} {field : StatusField} {label value : Text}

theorem trim_trim (text : Text) : trim (trim text) = trim text := trimBoth_trimBoth _ text

theorem trimmed_tidy {value : Option Text} {text : Text} (h : trimmed value = some text) :
    trim text = text ∧ text ≠ [] := by
  obtain ⟨hmap, hne⟩ := Option.filter_eq_some_iff.mp h
  obtain ⟨whole, -, rfl⟩ := Option.map_eq_some_iff.mp hmap
  refine ⟨trim_trim whole, ?_⟩
  rintro hnil
  simp [hnil] at hne

theorem trimmed_self_iff : trimmed (some value) = some value ↔ trim value = value ∧ value ≠ [] := by
  constructor
  · exact trimmed_tidy
  · rintro ⟨htrim, hne⟩
    simp [trimmed, htrim, hne]

/-- What a save leaves has nothing to trim off. -/
theorem tidy_saved (fields : List StatusField) (status : Classic) : Tidy (saved fields status) := by
  have hvalues : ∀ label value, (label, some value) ∈ sent status →
      trim value = value ∧ value ≠ [] := by
    intro label value hsend
    rcases List.mem_cons.mp hsend with h | hsend
    · exact trimmed_tidy (Prod.mk.inj h).2.symm
    rcases List.mem_cons.mp hsend with h | hsend
    · exact trimmed_tidy (Prod.mk.inj h).2.symm
    · exact trimmed_tidy (Prod.mk.inj (List.mem_singleton.mp hsend)).2.symm
  intro field hfield hcard
  rcases List.mem_append.mp hfield with hkept | hadd
  · obtain ⟨held, -, hsettled⟩ := List.mem_filterMap.mp hkept
    obtain ⟨value, hsend⟩ := sent_of_card hcard status
    rw [settled_label hsettled] at hsend
    rw [settled_of_sent hsend] at hsettled
    obtain ⟨value, rfl, rfl⟩ := Option.map_eq_some_iff.mp hsettled
    exact hvalues _ _ hsend
  · exact hvalues _ _ (added_label hadd).2

theorem found_of_sent {value : Option Text} (hsend : (label, value) ∈ sent (classicOf fields)) :
    value = trimmed ((fields.find? fun field => field.label = label).map StatusField.value) := by
  rcases List.mem_cons.mp hsend with h | hsend
  · rw [(Prod.mk.inj h).1, (Prod.mk.inj h).2, classicOf]
  rcases List.mem_cons.mp hsend with h | hsend
  · rw [(Prod.mk.inj h).1, (Prod.mk.inj h).2, classicOf]
  · rw [(Prod.mk.inj (List.mem_singleton.mp hsend)).1,
      (Prod.mk.inj (List.mem_singleton.mp hsend)).2, classicOf]

/-- Nothing is added to what is saved back. -/
theorem added_back (fields : List StatusField) : added (sent (classicOf fields)) fields = [] := by
  rw [List.eq_nil_iff_forall_not_mem]
  intro field hfield
  obtain ⟨hnot, hsend⟩ := added_label hfield
  have hnone : fields.find? (fun other => other.label = field.label) = none := by
    rw [List.find?_eq_none]
    intro other hother hsame
    exact hnot (List.mem_map.mpr ⟨other, hother, by simpa using hsame⟩)
  have hfound := found_of_sent hsend
  rw [hnone] at hfound
  cases hfound

/-- A list that keeps its length through a map has every one kept. -/
theorem filterMap_eq_self {turn : StatusField → Option StatusField}
    (h : fields.filterMap turn = fields) :
    ∀ field ∈ fields, turn field = some field := by
  induction fields with
  | nil => simp
  | cons first fields ih =>
    rw [List.filterMap_cons] at h
    cases hturn : turn first with
    | none =>
      rw [hturn] at h
      have hshort := List.length_filterMap_le turn fields
      have hlong := congrArg List.length h
      rw [List.length_cons] at hlong
      dsimp only at hlong
      omega
    | some kept =>
      rw [hturn] at h
      obtain ⟨hkept, hrest⟩ := List.cons.inj h
      intro field hfield
      rcases List.mem_cons.mp hfield with rfl | hfield
      · rw [hturn, hkept]
      · exact ih hrest field hfield

theorem saved_back (hdistinct : (fields.map StatusField.label).Nodup) (hfield : field ∈ fields) :
    settled (sent (classicOf fields)) field = some field ↔
      (field.label ∈ card → trim field.value = field.value ∧ field.value ≠ []) := by
  by_cases hcard : field.label ∈ card
  · obtain ⟨value, hsend⟩ := sent_of_card hcard (classicOf fields)
    have hfound := found_of_sent hsend
    rw [find?_key hdistinct hfield, Option.map_some] at hfound
    rw [settled_of_sent hsend, hfound, imp_iff_right hcard, ← trimmed_self_iff]
    constructor
    · intro hkept
      obtain ⟨value, hvalue, hsame⟩ := Option.map_eq_some_iff.mp hkept
      rw [hvalue, ← hsame]
    · intro hvalue
      rw [hvalue]
      rfl
  · refine iff_of_true (settled_other ?_) fun h => absurd h hcard
    intro send hsend hsame
    exact hcard (hsame ▸ card_of_sent hsend)

theorem back_iff (stored : Stored) :
    applyClassic stored.fields (classicOf stored.fields) = .ok stored.fields ↔
      Tidy stored.fields := by
  have hsaved : saved stored.fields (classicOf stored.fields) =
      stored.fields.filterMap (settled (sent (classicOf stored.fields))) := by
    rw [saved, added_back, List.append_nil]
  have hfew := (List.length_filterMap_le
    (settled (sent (classicOf stored.fields))) stored.fields).trans stored.few
  rw [applyClassic_eq stored.distinct, hsaved, if_neg (by omega), Except.ok.injEq]
  constructor
  · intro hback field hfield
    exact (saved_back stored.distinct hfield).mp (filterMap_eq_self hback field hfield)
  · intro htidy
    calc stored.fields.filterMap (settled (sent (classicOf stored.fields)))
      _ = stored.fields.filterMap some :=
        List.filterMap_congr fun field hfield =>
          (saved_back stored.distinct hfield).mpr (htidy field hfield)
      _ = stored.fields := List.filterMap_some

end Back

/-- An older app's save touches the three fields it knows and no other, or is refused for coming to
too many; saving back what it reads changes nothing where none of the three has space to trim off,
as none has after a save. -/
theorem older_save (stored : Stored) (status : Classic) : OlderSave stored status := by
  have hsave := applyClassic_eq stored.distinct status
  have hsaved : ∀ fields, applyClassic stored.fields status = .ok fields →
      fields = saved stored.fields status ∧
        (saved stored.fields status).length ≤ MAX_STATUS_FIELDS := by
    intro fields hfields
    rw [hsave] at hfields
    split_ifs at hfields with hmany
    exact ⟨(Except.ok.inj hfields).symm, not_lt.mp hmany⟩
  refine ⟨?_, ?_, back_iff stored, ?_⟩
  · intro why hwhy
    rw [hsave] at hwhy
    split_ifs at hwhy with hmany
    exact hmany
  · intro fields hfields
    obtain ⟨rfl, hfew⟩ := hsaved fields hfields
    refine ⟨saved_nodup stored.distinct status, hfew, others_kept _ status, ?_,
      classicOf_saved stored.distinct status⟩
    exact ⟨added (sent status) stored.fields, rfl, added_sublist _ _,
      fun field hfield => (added_label hfield).1⟩
  · intro fields hfields
    obtain ⟨rfl, -⟩ := hsaved fields hfields
    exact tidy_saved _ status

/-- A value carried over as it was from before there were fields, with a space in front. -/
def carriedOver : Stored := ⟨[⟨STATUS_LABEL_READING, " Dune".toList⟩], by decide, by decide⟩

theorem carried_over_changes :
    applyClassic carriedOver.fields (classicOf carriedOver.fields) ≠ .ok carriedOver.fields := by
  decide

end Linger.StatusFields
