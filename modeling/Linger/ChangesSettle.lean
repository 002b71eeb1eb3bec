import Linger.TaskPool
import Linger.ChangesView

/-! When every change undoes only itself: what a client shows of an item is what the server holds of
it, or something that will say so is still to come. -/
namespace Linger.Changes
open FiniteMap StepMachine TaskPool OnceList

section Coming
variable (meId : UserId) (st : State) (item : Item)

def holds : Bool := decide (item ∈ st.facts)

/-- What the frames on their way say of an item, one after another. -/
def said : List Bool := st.channel.filterMap fun frame => frame.tells item

/-- The last frame about it says what the server holds, or somebody is still to send one. -/
def Told : Prop := (∃ tell ∈ st.owed, tell.tells st.facts item = some (holds st item)) ∨
  (said st item).getLast? = some (holds st item)

/-- What was read for it says so, or is still to be read. -/
def answers (on : Bool) (e : Asked × Option Part) : Bool :=
  match e.2 with
  | none => e.1.covers item
  | some part => part.tells item == some on

/-- What was read for it says what the server holds, or is still to be read. -/
def brings (e : Asked × Option Part) : Bool := answers item (holds st item) e

def Fetched : Prop :=
  (Frame.reportsChanged ∈ st.channel ∧ Asked.reports.covers item = true) ∨
    Has st.fetches (brings st item)

/-- A change that is on its way put it so. -/
def puts (value : Bool) (request : Request) : Bool :=
  request.waiting && request.stage != .made && request.change.item meId == item &&
    request.change.value == value

def Pending (value : Bool) : Prop := Has st.requests (puts meId item value)

/-- It is what the server holds, or what a change on its way made it, or is still to be said. -/
def Sure (value : Bool) : Prop :=
  value = holds st item ∨ Told st item ∨ Fetched st item ∨ Pending meId st item value

instance (value : Bool) : Decidable (Sure meId st item value) := by
  unfold Sure Told Fetched Pending
  infer_instance

def SureAll (items : List Item) : Prop :=
  ∀ item ∈ items, ∀ value ∈ view st.store item, Sure meId st item value

end Coming

def Part.items : Part → List Item
  | .blocked userIds => userIds.list.map .blocked
  | .rules held => held.list.map .rule
  | .reports ids => (ids.getD ∅).list.map .report
  | .group messageId g => g.userIds.list.map (.reaction messageId g.key)
  | .message messageId groups => groups.list.flatMap fun g =>
    g.userIds.list.map (.reaction messageId g.key)

def noGroups : Groups := ⟨[], List.nodup_nil, nofun⟩

/-- What the store has where a part would be put. -/
def Store.like (s : Store) : Part → Part
  | .blocked _ => .blocked s.blocked
  | .rules _ => .rules s.notifyRules
  | .reports _ => .reports s.reports
  | .group messageId _ | .message messageId _ =>
    .message messageId ((s.messages[messageId]? : Option Groups).getD noGroups)

/-- Putting a part in leaves each entry of it, and each that the server has, as it was, or makes it
what it is sure to be. -/
def PutsRight (meId : UserId) (st st' : State) (part : Part) : Prop :=
  ∀ item ∈ part.items ++ st.facts.list, view st'.store item = view st.store item ∨
    ∀ value ∈ view st'.store item, Sure meId st' item value

/-- What an answer that fails to come was about, as far as the store or the server has it. -/
def missed (st : State) (e : Asked × Option Part) : List Item :=
  (st.store.like (e.2.getD (e.1.answer st.facts))).items ++ st.facts.list

/-- Where a step leaves what is shown right. -/
def Leaves (meId : UserId) (st st' : State) : Event → Prop
  | .make i =>
    match (st.requests[i]? : Option Request) with
    | some ⟨.rule r _, _, _, _⟩ => SureAll meId st' [.rule r]
    | _ => True
  | .elsewhere (.rule r) _ => SureAll meId st' [.rule r]
  | .fail i =>
    match (st.requests[i]? : Option Request) with
    | some request =>
      PutsRight meId st st' request.before ∧ SureAll meId st' [request.change.item meId]
    | none => True
  | .land j =>
    match (st.fetches[j]? : Option (Asked × Option Part)) with
    | some (_, some part) => PutsRight meId st st' part
    | _ => True
  | .miss j =>
    match (st.fetches[j]? : Option (Asked × Option Part)) with
    | some e => SureAll meId st' (missed st e)
    | none => True
  | .publish n =>
    match st.owed[n]? with
    | some (.block userId _) => Told st' (.blocked userId)
    | some (.reaction messageId key (some userIds)) =>
      ∀ userId ∈ userIds.list ++ (reactedOf st.facts messageId key).list,
        Told st' (.reaction messageId key userId)
    | _ => True
  | _ => True

section Before

/-- All there is but one change that is on its way. -/
def State.besides (st : State) (i : ℕ) : State := { st with requests := st.requests.erase i }

/-- All there is but one answer that is waited for. -/
def State.unread (st : State) (j : ℕ) : State := { st with fetches := st.fetches.erase j }

/-- Whether the store has what a part would be put in: an emoji's group goes on its message. -/
def Store.takes (s : Store) : Part → Bool
  | .group messageId _ => (s.messages[messageId]? : Option Groups).isSome
  | _ => true

/-- Each entry of a part, and each that the server has, is shown as the part has it, or what the
part has is sure without whatever is about to bring it. -/
def Fits (meId : UserId) (st rest : State) (part : Part) : Prop :=
  ∀ item ∈ part.items ++ st.facts.list, ∀ value ∈ part.tells item,
    view st.store item = some value ∨ Sure meId rest item value

/-- A rule is shown as it is about to be written, or a read on its way will say that it was, or a
change on its way made it as it is shown. -/
def WrittenAsShown (meId : UserId) (rest : State) (r : NotifyRule) (on : Bool) : Prop :=
  ∀ value ∈ view rest.store (.rule r),
    value = on ∨ Has rest.fetches (answers (.rule r) on) ∨ Pending meId rest (.rule r) value

/-- What a tell is of: who it says reacted, and who has. -/
def Tell.items (facts : Facts) : Tell → List Item
  | .block userId _ => [.blocked userId]
  | .reaction messageId key (some userIds) =>
    (userIds.list ++ (reactedOf facts messageId key).list).map (.reaction messageId key)
  | _ => []

/-- What a tell that is next to go says of an item is what the server holds, or more is told of it
later. -/
def SaysSo (st : State) (n : ℕ) (tell : Tell) (item : Item) : Prop :=
  tell.tells st.facts item = some (holds st item) ∨
    ∃ later ∈ st.owed.eraseIdx n, later.tells st.facts item = some (holds st item)

/-- The condition on a step, read off the state before it. A refusal finds what its change remembers
from before it shown already, entry by entry, or sure without the change; and so for the change's
own entry, but that this is sure. An answer finds what it says so, without that answer; one that
fails to come leaves nothing to it alone. A rule, of which nobody is told, is written as it is
shown. And what is told of an item is what the server holds, or more is told of it later. -/
def Unraced (meId : UserId) (st : State) : Event → Prop
  | .make i =>
    ∀ request ∈ (st.requests[i]? : Option Request), ∀ r ∈ (request.change.item meId).ruleOf,
      WrittenAsShown meId (st.besides i) r request.change.value
  | .elsewhere item on => ∀ r ∈ item.ruleOf, WrittenAsShown meId st r on
  | .fail i =>
    ∀ request ∈ (st.requests[i]? : Option Request), st.store.takes request.before = true →
      Fits meId st (st.besides i) request.before ∧
        ∀ value ∈ request.before.tells (request.change.item meId),
          Sure meId (st.besides i) (request.change.item meId) value
  | .land j => ∀ e ∈ (st.fetches[j]? : Option (Asked × Option Part)), ∀ part ∈ e.2,
      st.store.takes part = true → Fits meId st (st.unread j) part
  | .miss j =>
    ∀ e ∈ (st.fetches[j]? : Option (Asked × Option Part)), SureAll meId (st.unread j) (missed st e)
  | .publish n => ∀ tell ∈ st.owed[n]?, ∀ item ∈ tell.items st.facts, SaysSo st n tell item
  | _ => True

/-- What each change that is on its way remembers is what some store had of it. -/
def Remembers (st : State) : Prop :=
  All st.requests fun request => ∃ (s : Store) (given : Groups),
    request.before = s.before given request.change

end Before

/-- What is shown of each item that is held is sure, and frames about it end with what is so. -/
def Right (meId : UserId) (st : State) : Prop :=
  ∀ item, Told st item ∨ said st item = [] ∧ ∀ value ∈ view st.store item,
    value = holds st item ∨ Fetched st item ∨ Pending meId st item value

section Start
variable {meId : UserId} {facts : Facts} {st : State} {item : Item} {value : Bool}

/-- Once nothing is on its way, what is shown is what the server holds. -/
theorem Right.quiet (h : Right meId st) (hquiet : st.Quiet)
    (hview : view st.store item = some value) :
    value = holds st item := by
  obtain ⟨hrequests, howed, hchannel, hfetches⟩ := hquiet
  rcases h item with (⟨tell, hmem, -⟩ | hsaid) | ⟨-, hshown⟩
  · rw [howed] at hmem
    cases hmem
  · rw [said, hchannel] at hsaid
    cases hsaid
  · rcases hshown value hview with heq | (⟨hmem, -⟩ | hfetch) | hpending
    · exact heq
    · rw [hchannel] at hmem
      cases hmem
    · obtain ⟨j, e, he, -⟩ := has_iff.mp hfetch
      rw [hfetches] at he
      simp at he
    · obtain ⟨i, request, hi, -⟩ := has_iff.mp hpending
      rw [hrequests] at hi
      simp at hi

end Start

section Keeping
variable {meId : UserId} {st st' : State} {item : Item} {on : Bool}

/-- What is shown of an item that no frame is on its way about. -/
def Shown (meId : UserId) (st : State) (item : Item) : Prop :=
  ∀ value ∈ view st.store item, value = holds st item ∨ Fetched st item ∨ Pending meId st item value

/-- Where nothing is written or told, only what is shown is to be looked at. -/
theorem Right.keeps (h : Right meId st) (hfacts : st'.facts = st.facts) (howed : st'.owed = st.owed)
    (hchannel : st'.channel = st.channel)
    (hshown : ∀ item, ¬ Told st item → Shown meId st item → Shown meId st' item) :
    Right meId st' := by
  have hholds (item : Item) : holds st' item = holds st item := by rw [holds, holds, hfacts]
  have hsaid (item : Item) : said st' item = said st item := by rw [said, said, hchannel]
  have htold (item : Item) : Told st' item ↔ Told st item := by
    rw [Told, Told, hsaid, hholds, howed, hfacts]
  intro item
  rw [htold, hsaid]
  by_cases htold : Told st item
  · exact .inl htold
  · obtain ⟨hnone, hitem⟩ := (h item).resolve_left htold
    exact .inr ⟨hnone, hshown item htold hitem⟩

theorem Fetched.keeps (h : Fetched st item) (hfacts : st'.facts = st.facts)
    (hchannel : st'.channel = st.channel)
    (hfetches : st'.fetches = st.fetches) : Fetched st' item := by
  have hbrings : brings st' item = brings st item := by
    funext e
    rw [brings, brings, holds, holds, hfacts]
  rw [Fetched, hchannel, hbrings, hfetches]
  exact h

theorem Pending.keeps {value : Bool} (h : Pending meId st item value)
    (hrequests : st'.requests = st.requests) :
    Pending meId st' item value := by
  rw [Pending, hrequests]
  exact h

/-- What one request gives way to. -/
theorem Pending.split {value : Bool} {i : ℕ} {request : Request} (h : Pending meId st item value)
    (hi : (st.requests[i]? : Option Request) = some request) :
    puts meId item value request = true ∨ Others st.requests i (puts meId item value) :=
      has_split hi h

theorem shows_mem {messageId : MessageId} {groups : Groups} {key : ReactionKey} {userId : UserId}
    (h : shows groups.list key userId = true) :
    .reaction messageId key userId ∈ (Part.message messageId groups).items := by
  rw [shows] at h
  cases hfind : groups.list.find? fun one => one.key = key with
  | none =>
    rw [hfind] at h
    cases h
  | some g =>
    rw [hfind, Option.any_some, decide_eq_true_iff] at h
    have hsome := List.find?_some hfind
    have hkey : g.key = key := of_decide_eq_true hsome
    subst hkey
    exact List.mem_flatMap.mpr ⟨g, List.mem_of_find?_eq_some hfind, List.mem_map_of_mem h⟩

/-- What a part says is so is among its items. -/
theorem tells_items {part : Part} (h : part.tells item = some true) : item ∈ part.items := by
  cases part with
  | blocked userIds =>
    cases item with
    | blocked userId => exact List.mem_map_of_mem (of_decide_eq_true (Option.some.inj h))
    | _ => cases h
  | rules held =>
    cases item with
    | rule r => exact List.mem_map_of_mem (of_decide_eq_true (Option.some.inj h))
    | _ => cases h
  | reports ids =>
    cases ids with
    | none => cases item <;> cases h
    | some ids =>
      cases item with
      | report id => exact List.mem_map_of_mem (of_decide_eq_true (Option.some.inj h))
      | _ => cases h
  | group messageId g =>
    cases item with
    | reaction m key userId =>
      obtain ⟨⟨rfl, rfl⟩, hsome⟩ := Option.ite_none_right_eq_some.mp h
      exact List.mem_map_of_mem (of_decide_eq_true (Option.some.inj hsome))
    | _ => cases h
  | message messageId groups =>
    cases item with
    | reaction m key userId =>
      obtain ⟨rfl, hsome⟩ := Option.ite_none_right_eq_some.mp h
      exact shows_mem (Option.some.inj hsome)
    | _ => cases h

/-- What is put in is right, entry by entry, if what it touches is. -/
theorem Shown.put {part : Part} {own : List Item} (hstore : st'.store = st.store.put part)
    (hfacts : st'.facts = st.facts) (htold : ¬ Told st' item) (hputs : PutsRight meId st st' part)
    (hown : SureAll meId st' own) (hkeep : item ∉ own → view st'.store item = view st.store item →
      Shown meId st' item) : Shown meId st' item := by
  have hsure (hsure : ∀ value ∈ view st'.store item, Sure meId st' item value) :
      Shown meId st' item := by
    intro value hvalue
    rcases hsure value hvalue with heq | ht | hfetched | hpending
    · exact .inl heq
    · exact absurd ht htold
    · exact .inr (.inl hfetched)
    · exact .inr (.inr hpending)
  have hsame (hsame : view st'.store item = view st.store item) : Shown meId st' item := by
    by_cases hmem : item ∈ own
    · exact hsure (hown item hmem)
    · exact hkeep hmem hsame
  by_cases htouched : item ∈ part.items ++ st.facts.list
  · rcases hputs item htouched with heq | hright
    · exact hsame heq
    · exact hsure hright
  · rw [List.mem_append, not_or] at htouched
    have hview := @view_put st.store item part
    rw [← hstore] at hview
    rcases hview with hnone | hview
    · intro value hvalue
      rw [hnone] at hvalue
      cases hvalue
    · cases htells : part.tells item with
      | none =>
        rw [htells, Option.none_or] at hview
        exact hsame hview
      | some value =>
        -- it isn't on the list that is put in, and the server doesn't have it
        have hfalse : value = false := by
          rw [← Bool.not_eq_true]
          rintro rfl
          exact htouched.1 (tells_items htells)
        rw [htells, Option.some_or, hfalse] at hview
        intro value' hvalue'
        rw [hview] at hvalue'
        cases hvalue'
        refine .inl ?_
        rw [holds, hfacts, eq_comm, decide_eq_false_iff_not]
        exact htouched.2

end Keeping
end Linger.Changes
