import Linger.Wire
import Linger.OnceList
import Linger.StepMachine

/-! Changes a client shows before the server has made them: blocks, notify rules, reports that are
closed, and reactions. The server makes or refuses each, tells of some, and is asked for the whole
of a list now and then. -/
namespace Linger.Changes
open FiniteMap StepMachine OnceList

abbrev ReportId := ℕ
abbrev ReactionKey := ℕ

structure NotifyRule where
  targetUserId : UserId
  roomId : Option RoomId
  deriving DecidableEq

/-- One thing that is so or isn't, for the person whose client it is. -/
inductive Item
  | blocked (userId : UserId)
  | rule (rule : NotifyRule)
  | report (id : ReportId)
  | reaction (messageId : MessageId) (key : ReactionKey) (userId : UserId)
  deriving DecidableEq

/-- One emoji's reactions on a message, with how many they are. -/
structure ReactionGroup where
  key : ReactionKey
  count : ℕ
  userIds : Once UserId
  counted : count = userIds.list.length
  deriving DecidableEq

def ReactionGroup.of (key : ReactionKey) (userIds : Once UserId) : ReactionGroup :=
  ⟨key, userIds.list.length, userIds, rfl⟩

/-- One emoji's reactions folded into a message's: in its place if it was there, at the end if it's
new, gone when nobody's is left. -/
def withGroup (groups : List ReactionGroup) (group : ReactionGroup) : List ReactionGroup :=
  match groups.findIdx? fun one => one.key = group.key with
  | none => if group.count = 0 then groups else groups ++ [group]
  | some at' => if group.count = 0 then groups.filter fun one =>
    one.key ≠ group.key else groups.set at' group

section Groups
variable {groups : List ReactionGroup} {group : ReactionGroup}

/-- A message has each emoji once. -/
theorem keys_withGroup (h : (groups.map ReactionGroup.key).Nodup) :
    ((withGroup groups group).map ReactionGroup.key).Nodup := by
  rw [withGroup]
  cases hat : groups.findIdx? fun one => one.key = group.key with
  | none =>
    have hnew : group.key ∉ groups.map ReactionGroup.key := by
      intro hmem
      obtain ⟨one, hone, hkey⟩ := List.mem_map.mp hmem
      exact absurd (List.findIdx?_eq_none_iff.mp hat one hone) (by simp [hkey])
    dsimp only
    split
    · exact h
    · rw [List.map_append]
      exact h.append (List.nodup_singleton _) fun key hkey hmem =>
        hnew (List.mem_singleton.mp hmem ▸ hkey)
  | some at' =>
    obtain ⟨hlt, hkey, -⟩ := List.findIdx?_eq_some_iff_getElem.mp hat
    have hkey : groups[at'].key = group.key := of_decide_eq_true hkey
    dsimp only
    split
    · exact h.sublist (List.filter_sublist.map _)
    · have hlt' : at' < (groups.map ReactionGroup.key).length :=
        hlt.trans_eq (List.length_map _).symm
      have hget : (groups.map ReactionGroup.key)[at'] = group.key := (List.getElem_map _).trans hkey
      rw [List.map_set, ← hget, List.set_getElem_self]
      exact h

/-- None of them is nobody's. -/
theorem some_withGroup (h : ∀ one ∈ groups, one.count ≠ 0) :
    ∀ one ∈ withGroup groups group, one.count ≠ 0 := by
  intro one hone
  rw [withGroup] at hone
  split at hone
  · split at hone
    · exact h one hone
    · next hcount =>
      rcases List.mem_append.mp hone with hmem | hmem
      · exact h one hmem
      · rw [List.mem_singleton.mp hmem]
        exact hcount
  · split at hone
    · exact h one (List.mem_of_mem_filter hone)
    · next hcount =>
      rcases List.mem_or_eq_of_mem_set hone with hmem | heq
      · exact h one hmem
      · rw [heq]
        exact hcount

end Groups

/-- A message's reactions: each emoji once, and none that is nobody's. -/
structure Groups where
  list : List ReactionGroup
  keys : (list.map ReactionGroup.key).Nodup
  some : ∀ one ∈ list, one.count ≠ 0
  deriving DecidableEq

def Groups.with (groups : Groups) (group : ReactionGroup) : Groups :=
  ⟨withGroup groups.list group, keys_withGroup groups.keys, some_withGroup groups.some⟩

def Groups.find (groups : Groups) (key : ReactionKey) : Option ReactionGroup :=
  groups.list.find? fun one => one.key = key

/-- One emoji's group with somebody added or taken out. -/
def toggled (groups : Groups) (key : ReactionKey) (meId : UserId) (on : Bool) : ReactionGroup :=
  .of key ((((groups.find key).map ReactionGroup.userIds).getD ∅).putIn meId on)

/-- What of the store these changes are about; `reports` is none until the host has asked. -/
structure Store where
  blocked : Once UserId
  notifyRules : Once NotifyRule
  reports : Option (Once ReportId)
  messages : FMap MessageId Groups

/-- A list, or an emoji's reactions, or a message's, as a whole. -/
inductive Part
  | blocked (userIds : Once UserId)
  | rules (rules : Once NotifyRule)
  | reports (ids : Option (Once ReportId))
  | group (messageId : MessageId) (group : ReactionGroup)
  | message (messageId : MessageId) (groups : Groups)
  deriving DecidableEq

inductive Change
  | block (userId : UserId) (on : Bool)
  | rule (rule : NotifyRule) (on : Bool)
  | close (id : ReportId)
  | react (messageId : MessageId) (key : ReactionKey) (on : Bool)
  deriving DecidableEq

def Change.item (meId : UserId) : Change → Item
  | .block userId _ => .blocked userId
  | .rule r _ => .rule r
  | .close id => .report id
  | .react messageId key _ => .reaction messageId key meId

def Change.value : Change → Bool
  | .block _ on | .rule _ on | .react _ _ on => on
  | .close _ => false

namespace Store

def withReactions (s : Store) (messageId : MessageId) (change : Groups → Groups) : Store :=
  { s with messages := s.messages.alter messageId fun groups => groups.map change }

/-- What a change shows at once. -/
def show' (s : Store) (meId : UserId) : Change → Store
  | .block userId on => { s with blocked := s.blocked.putIn userId on }
  | .rule rule on => { s with notifyRules := s.notifyRules.putIn rule on }
  | .close id => { s with reports := s.reports.map fun ids => ids.without id }
  | .react messageId key on => s.withReactions messageId fun groups =>
    groups.with (toggled groups key meId on)

/-- What a change remembers from before it: a whole list, or the emoji's group on the message it was
given. -/
def before (s : Store) (given : Groups) : Change → Part
  | .block .. => .blocked s.blocked
  | .rule .. => .rules s.notifyRules
  | .close _ => .reports s.reports
  | .react messageId key _ => .group messageId ((given.find key).getD (.of key ∅))

/-- A part put in as it is. -/
def put (s : Store) : Part → Store
  | .blocked userIds => { s with blocked := userIds }
  | .rules rules => { s with notifyRules := rules }
  | .reports ids => { s with reports := ids }
  | .group messageId group => s.withReactions messageId fun groups => groups.with group
  | .message messageId groups => { s with messages := s.messages.insert messageId groups }

end Store

section Server

/-- What the server holds, in the order it came to be. -/
abbrev Facts := Once Item

/-- What is so already stays where it is. -/
def setFact (facts : Facts) (item : Item) (on : Bool) : Facts :=
  if on = true ∧ item ∈ facts then facts else facts.putIn item on

def Item.blockedId : Item → Option UserId
  | .blocked userId => some userId
  | _ => none

def Item.ruleOf : Item → Option NotifyRule
  | .rule r => some r
  | _ => none

def Item.reportId : Item → Option ReportId
  | .report id => some id
  | _ => none

/-- Whose reaction it is, if it is one with this emoji on this message. -/
def Item.reactor (messageId : MessageId) (key : ReactionKey) : Item → Option UserId
  | .reaction m k userId => if m = messageId ∧ k = key then some userId else none
  | _ => none

def Item.keyOn (messageId : MessageId) : Item → Option ReactionKey
  | .reaction m key _ => if m = messageId then some key else none
  | _ => none

section Fields
variable {item : Item}

theorem blockedId_some {userId : UserId} :
    item.blockedId = some userId ↔ item = .blocked userId := by
  cases item <;> simp [Item.blockedId]

theorem ruleOf_some {r : NotifyRule} : item.ruleOf = some r ↔ item = .rule r := by
  cases item <;> simp [Item.ruleOf]

theorem reportId_some {id : ReportId} : item.reportId = some id ↔ item = .report id := by
  cases item <;> simp [Item.reportId]

theorem reactor_some {messageId : MessageId} {key : ReactionKey} {userId : UserId} :
    item.reactor messageId key = some userId ↔ item = .reaction messageId key userId := by
  cases item with
  | reaction m k u =>
    rw [Item.reactor, Option.ite_none_right_eq_some]
    simp only [Option.some.injEq, Item.reaction.injEq]
    exact and_assoc
  | _ => simp [Item.reactor]

end Fields

def blocksOf (facts : Facts) : Once UserId :=
  facts.pick Item.blockedId fun _ _ _ h h' =>
    (blockedId_some.mp h).trans (blockedId_some.mp h').symm

def rulesOf (facts : Facts) : Once NotifyRule :=
  facts.pick Item.ruleOf fun _ _ _ h h' => (ruleOf_some.mp h).trans (ruleOf_some.mp h').symm

def reportsOf (facts : Facts) : Once ReportId :=
  facts.pick Item.reportId fun _ _ _ h h' => (reportId_some.mp h).trans (reportId_some.mp h').symm

def reactedOf (facts : Facts) (messageId : MessageId) (key : ReactionKey) : Once UserId :=
  facts.pick (Item.reactor messageId key) fun _ _ _ h h' =>
    (reactor_some.mp h).trans (reactor_some.mp h').symm

/-- A message's emoji, in the order each was first left. -/
def keysOf (facts : Facts) (messageId : MessageId) : Once ReactionKey :=
  .firsts (facts.list.filterMap (Item.keyOn messageId))

theorem mem_reactedOf {facts : Facts} {messageId : MessageId} {key : ReactionKey}
    {userId : UserId} :
    userId ∈ reactedOf facts messageId key ↔ .reaction messageId key userId ∈ facts := by
  rw [reactedOf, Once.mem_pick]
  constructor
  · rintro ⟨item, hmem, hsome⟩
    rw [← reactor_some.mp hsome]
    exact hmem
  · exact fun h => ⟨_, h, reactor_some.mpr rfl⟩

theorem mem_keysOf {facts : Facts} {messageId : MessageId} {key : ReactionKey} :
    key ∈ keysOf facts messageId ↔ ∃ userId, .reaction messageId key userId ∈ facts := by
  rw [keysOf, Once.mem_firsts, List.mem_filterMap]
  constructor
  · rintro ⟨item, hmem, hsome⟩
    cases item with
    | reaction m k userId =>
      obtain ⟨rfl, heq⟩ := Option.ite_none_right_eq_some.mp hsome
      cases heq
      exact ⟨userId, hmem⟩
    | _ => cases hsome
  · rintro ⟨userId, hmem⟩
    exact ⟨_, hmem, if_pos rfl⟩

def groupsOf (facts : Facts) (messageId : MessageId) : Groups where
  list := (keysOf facts messageId).list.map fun key => .of key (reactedOf facts messageId key)
  keys := by
    rw [List.map_map]
    exact (List.map_id (keysOf facts messageId).list).symm ▸ (keysOf facts messageId).once
  some := by
    intro one hone
    obtain ⟨key, hkey, rfl⟩ := List.mem_map.mp hone
    obtain ⟨userId, hmem⟩ := mem_keysOf.mp hkey
    exact (List.length_pos_of_mem (mem_reactedOf.mpr hmem)).ne'

/-- What is asked for whole. -/
inductive Asked
  | blocks
  | rules
  | reports
  | message (messageId : MessageId)
  deriving DecidableEq

def Asked.answer (facts : Facts) : Asked → Part
  | .blocks => .blocked (blocksOf facts)
  | .rules => .rules (rulesOf facts)
  | .reports => .reports (some (reportsOf facts))
  | .message messageId => .message messageId (groupsOf facts messageId)

/-- What a request has still to tell everybody it concerns. Reactions are read for it first. -/
inductive Tell
  | block (userId : UserId) (on : Bool)
  | reaction (messageId : MessageId) (key : ReactionKey) (read : Option (Once UserId))
  | reports
  deriving DecidableEq

inductive Frame
  | blockUpdate (userId : UserId) (blocked : Bool)
  | reactionUpdate (messageId : MessageId) (group : ReactionGroup)
  | reportsChanged
  deriving DecidableEq

/-- Who is told of a change: of a block each time, of a reaction or a report when it changed
something, of a rule nobody. -/
def tellOf (facts : Facts) (item : Item) (on : Bool) : Option Tell :=
  match item with
  | .blocked userId => some (.block userId on)
  | .rule _ => none
  | .report _ => if decide (item ∈ facts) = on then none else some .reports
  | .reaction messageId key _ =>
    if decide (item ∈ facts) = on then none else some (.reaction messageId key none)

/-- The frame a tell sends, once it knows what to say. -/
def Tell.frame : Tell → Option Frame
  | .block userId on => some (.blockUpdate userId on)
  | .reaction messageId key read => read.map fun userIds =>
    .reactionUpdate messageId (.of key userIds)
  | .reports => some .reportsChanged

end Server

section Machine

inductive Stage
  | sent
  | made
  | refused
  deriving DecidableEq

/-- A change on its way: what it remembers from before it, how far the server is with it, and
whether its answer is still waited for. -/
structure Request where
  change : Change
  before : Part
  stage : Stage
  waiting : Bool
  deriving DecidableEq

structure State where
  facts : Facts
  store : Store
  requests : FMap ℕ Request
  owed : List Tell
  channel : List Frame
  fetches : FMap ℕ (Asked × Option Part)

inductive Event
  | change (i : ℕ) (change : Change) (given : Groups)
  | make (i : ℕ)
  | refuse (i : ℕ)
  | confirm (i : ℕ)
  | fail (i : ℕ)
  | elsewhere (item : Item) (on : Bool)
  | read (n : ℕ)
  | publish (n : ℕ)
  | deliver (j : ℕ)
  | ask (j : ℕ) (asked : Asked)
  | serve (j : ℕ)
  | land (j : ℕ)
  | miss (j : ℕ)
  | letGo (messageId : MessageId)

namespace State
variable (st : State)

/-- The server makes something so, for whoever asked. -/
def write (item : Item) (on : Bool) : State :=
  { st with facts := setFact st.facts item on, owed := st.owed ++ (tellOf st.facts item on).toList }

/-- An answer, or none where one was waited for: a request both ends are done with is gone. -/
def answered (i : ℕ) (request : Request) : State :=
  { st with
    requests :=
      if request.stage = .sent then st.requests.insert i { request with waiting := false }
      else st.requests.erase i }

def decided (i : ℕ) (request : Request) (stage : Stage) : State :=
  { st with
    requests := if request.waiting then st.requests.insert i { request with stage := stage }
      else st.requests.erase i }

end State

def advance (meId : UserId) (st : State) : Event → Option State
  | .change i change given =>
    if (st.requests[i]? : Option Request) = none then
      some { st with
        store := st.store.show' meId change
        requests := st.requests.insert i
          { change := change, before := st.store.before given change, stage := .sent,
            waiting := true } }
    else none
  | .make i =>
    match (st.requests[i]? : Option Request) with
    | some request =>
      if request.stage = .sent then
        some ((st.write (request.change.item meId) request.change.value).decided i request .made)
      else none
    | none => none
  | .refuse i =>
    match (st.requests[i]? : Option Request) with
    | some request => if request.stage = .sent then some (st.decided i request .refused) else none
    | none => none
  | .confirm i =>
    match (st.requests[i]? : Option Request) with
    | some request => if request.stage = .made then some (st.answered i request) else none
    | none => none
  | .fail i =>
    match (st.requests[i]? : Option Request) with
    | some request =>
      if request.waiting then
        some { st.answered i request with store := st.store.put request.before } else none
    | none => none
  | .elsewhere item on => some (st.write item on)
  | .read n =>
    match st.owed[n]? with
    | some (.reaction messageId key none) =>
      some { st with
        owed := st.owed.set n (.reaction messageId key (some (reactedOf st.facts messageId key))) }
    | _ => none
  | .publish n =>
    match st.owed[n]?.bind Tell.frame with
    | some frame => some { st with owed := st.owed.eraseIdx n, channel := st.channel ++ [frame] }
    | none => none
  | .deliver j =>
    match st.channel with
    | [] => none
    | .blockUpdate userId on :: channel =>
      some { st with
        channel := channel, store := { st.store with blocked := st.store.blocked.putIn userId on } }
    | .reactionUpdate messageId group :: channel =>
      some { st with channel := channel, store := st.store.put (.group messageId group) }
    | .reportsChanged :: channel =>
      if (st.fetches[j]? : Option (Asked × Option Part)) = none then
        some { st with channel := channel, fetches := st.fetches.insert j (.reports, none) }
      else none
  | .ask j asked =>
    if (st.fetches[j]? : Option (Asked × Option Part)) = none then
      some { st with fetches := st.fetches.insert j (asked, none) }
    else none
  | .serve j =>
    match (st.fetches[j]? : Option (Asked × Option Part)) with
    | some (asked, none) =>
      some { st with fetches := st.fetches.insert j (asked, some (asked.answer st.facts)) }
    | _ => none
  | .land j =>
    match (st.fetches[j]? : Option (Asked × Option Part)) with
    | some (_, some part) =>
      some { st with fetches := st.fetches.erase j, store := st.store.put part }
    | _ => none
  | .miss j =>
    if (st.fetches[j]? : Option (Asked × Option Part)) = none then none
    else some { st with fetches := st.fetches.erase j }
  | .letGo messageId =>
    some { st with store := { st.store with messages := st.store.messages.erase messageId } }

/-- A client that has just read everything of its own, and holds no messages yet. -/
def machine (meId : UserId) (facts : Facts) : Machine State Event where
  start :=
    { facts := facts
      store :=
        { blocked := blocksOf facts, notifyRules := rulesOf facts, reports := none, messages := ∅ }
      requests := ∅, owed := [], channel := [], fetches := ∅ }
  step := advance meId

/-- Nothing is on its way, in either direction. -/
def State.Quiet (st : State) : Prop :=
  st.requests = ∅ ∧ st.owed = [] ∧ st.channel = [] ∧ st.fetches = ∅

end Machine
end Linger.Changes
