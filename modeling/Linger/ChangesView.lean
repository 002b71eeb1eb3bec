import Linger.Changes

/-! What a client shows of each item, and what each thing that is put in its store, sent to it or
read for it says of one. -/
namespace Linger.Changes
open FiniteMap OnceList

section Says

/-- Whether somebody's reaction shows on a message. -/
def shows (groups : List ReactionGroup) (key : ReactionKey) (userId : UserId) : Bool :=
  (groups.find? fun one => one.key = key).any fun one => decide (userId ∈ one.userIds)

/-- What the client shows of an item; nothing, while what it is on isn't held. -/
def view (s : Store) : Item → Option Bool
  | .blocked userId => some (decide (userId ∈ s.blocked))
  | .rule rule => some (decide (rule ∈ s.notifyRules))
  | .report id => s.reports.map fun ids => decide (id ∈ ids)
  | .reaction messageId key userId =>
    (s.messages[messageId]? : Option Groups).map fun groups => shows groups.list key userId

def Part.tells : Part → Item → Option Bool
  | .blocked userIds, .blocked userId => some (decide (userId ∈ userIds))
  | .rules held, .rule r => some (decide (r ∈ held))
  | .reports (some ids), .report id => some (decide (id ∈ ids))
  | .group m g, .reaction messageId key userId =>
    if messageId = m ∧ key = g.key then some (decide (userId ∈ g.userIds)) else none
  | .message m groups, .reaction messageId key userId =>
    if messageId = m then some (shows groups.list key userId) else none
  | _, _ => none

def Frame.tells : Frame → Item → Option Bool
  | .blockUpdate userId on, .blocked other => if other = userId then some on else none
  | .reactionUpdate m group, item => Part.tells (.group m group) item
  | _, _ => none

def Tell.tells (facts : Facts) : Tell → Item → Option Bool
  | .block userId on, .blocked other => if other = userId then some on else none
  | .reaction m k none, .reaction messageId key userId =>
    if messageId = m ∧ key = k then some (decide (.reaction messageId key userId ∈ facts)) else none
  | .reaction m k (some userIds), .reaction messageId key userId =>
    if messageId = m ∧ key = k then some (decide (userId ∈ userIds)) else none
  | .reports, .report id => some (decide (.report id ∈ facts))
  | _, _ => none

def Asked.covers : Asked → Item → Bool
  | .blocks, .blocked _ | .rules, .rule _ | .reports, .report _ => true
  | .message m, .reaction messageId _ _ => decide (messageId = m)
  | _, _ => false

end Says

section Groups
variable {groups : List ReactionGroup} {group : ReactionGroup} {key : ReactionKey}
  {userId meId : UserId}

theorem withGroup_cons {one : ReactionGroup} (hne : one.key ≠ group.key) :
    withGroup (one :: groups) group = one :: withGroup groups group := by
  rw [withGroup, withGroup, List.findIdx?_cons, if_neg (by simpa using hne)]
  cases groups.findIdx? fun one => one.key = group.key with
  | none =>
    simp only [Option.map_none]
    split <;> rfl
  | some at' =>
    simp only [Option.map_some]
    split
    · rw [List.filter_cons_of_pos (by simpa using hne)]
    · rfl

/-- Folding a group in replaces its emoji's and leaves the others'. -/
theorem find_withGroup : (withGroup groups group).find? (fun one => one.key = key) =
    if key = group.key then if group.count = 0 then none else some group
    else groups.find? fun one => one.key = key := by
  induction groups with
  | nil =>
    rw [withGroup, List.findIdx?_nil]
    by_cases hcount : group.count = 0
    · simp [hcount]
    · by_cases hkey : key = group.key
      · simp [hcount, hkey]
      · simp [hcount, hkey, Ne.symm hkey]
  | cons one groups ih =>
    by_cases hone : one.key = group.key
    · rw [withGroup, List.findIdx?_cons, if_pos (by simpa using hone)]
      by_cases hcount : group.count = 0
      · have hfilter : (one :: groups).filter (fun one => one.key ≠ group.key) =
            groups.filter fun one => one.key ≠ group.key :=
              List.filter_cons_of_neg (by simpa using hone)
        by_cases hkey : key = group.key
        · simp only [hcount, if_true, hfilter, List.find?_filter, hkey]
          rw [List.find?_eq_none]
          simp
        · have hkeyOne : one.key ≠ key := fun h => hkey (h.symm.trans hone)
          have hboth : (fun a : ReactionGroup =>
              decide (decide (a.key ≠ group.key) = true ∧ decide (a.key = key) = true)) =
              fun a => decide (a.key = key) := by
            funext a
            by_cases ha : a.key = key
            · simp [ha, hkey]
            · simp [ha]
          simp only [hcount, if_true, hfilter, List.find?_filter, hkey, if_false]
          rw [hboth, List.find?_cons_of_neg (by simpa using hkeyOne)]
      · by_cases hkey : key = group.key
        · simp [hcount, hkey]
        · have hkeyOne : one.key ≠ key := fun h => hkey (h.symm.trans hone)
          simp [hcount, hkey, Ne.symm hkey, hkeyOne]
    · rw [withGroup_cons hone, List.find?_cons, List.find?_cons, ih]
      by_cases hkey : key = group.key
      · have hkeyOne : one.key ≠ key := fun h => hone (h.trans hkey)
        simp [hkey, hone]
      · simp [hkey]

theorem shows_withGroup : shows (withGroup groups group) key userId =
    if key = group.key then decide (userId ∈ group.userIds) else shows groups key userId := by
  rw [shows, find_withGroup]
  split
  · split
    · next hcount =>
      have hnone : group.userIds.list = [] :=
        List.eq_nil_of_length_eq_zero (group.counted.symm.trans hcount)
      have hnot : userId ∉ group.userIds := by
        rw [← Once.mem_list, hnone]
        exact List.not_mem_nil
      exact (decide_eq_false hnot).symm
    · rfl
  · rfl

end Groups

section View
variable {s : Store} {item : Item} {part : Part} {meId : UserId}

theorem view_reactions (messageId : MessageId) (change : Groups → Groups) :
    view (s.withReactions messageId change) item =
      match item with
      | .reaction m key userId =>
        (s.messages[m]? : Option Groups).map fun groups =>
          if m = messageId then shows (change groups).list key userId
            else shows groups.list key userId
      | _ => view s item := by
  cases item with
  | reaction m key userId =>
    dsimp only [view, Store.withReactions]
    rw [alter_at]
    by_cases hm : m = messageId
    · subst hm
      rw [if_pos rfl, Option.map_map]
      cases (s.messages[m]? : Option Groups) <;> simp
    · simp only [if_neg hm]
  | _ => rfl

/-- What is put in shows what it says; the rest is as it was, or no longer held. -/
theorem view_put : view (s.put part) item = none ∨ view (s.put part) item = (part.tells item).or
    (view s item) := by
  cases part with
  | blocked userIds => cases item <;> exact .inr rfl
  | rules held => cases item <;> exact .inr rfl
  | reports ids =>
    cases ids with
    | some ids => cases item <;> exact .inr rfl
    | none =>
      cases item with
      | report id => exact .inl rfl
      | _ => exact .inr rfl
  | group messageId group =>
    rw [Store.put, view_reactions]
    cases item with
    | reaction m key userId =>
      dsimp only [Part.tells, view]
      cases hm : (s.messages[m]? : Option Groups) with
      | none => exact .inl rfl
      | some groups =>
        refine .inr ?_
        rw [Option.map_some, Option.map_some, Groups.with, shows_withGroup]
        by_cases hsame : m = messageId <;> by_cases hkey : key = group.key <;> simp [hsame, hkey]
    | _ => exact .inr rfl
  | message messageId groups =>
    cases item with
    | reaction m key userId =>
      refine .inr ?_
      dsimp only [Part.tells, view, Store.put]
      rw [insert_at]
      by_cases hm : m = messageId <;> simp [hm]
    | _ => exact .inr rfl

end View

section Reading
variable {facts : Facts} {item : Item} {asked : Asked}

end Reading
end Linger.Changes
