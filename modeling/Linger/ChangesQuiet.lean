import Linger.ChangesSteps

/-! Once nothing is on its way, a client holds what its server does, if every change undid only
itself. -/
namespace Linger.Changes
open FiniteMap StepMachine TaskPool OnceList

section Agreeing
variable {st : State} {item : Item}

/-- The lists are the server's, and so is each message's that is held, emoji by emoji, in whatever
order. -/
structure Agrees (st : State) : Prop where
  blocked : st.store.blocked.list.Perm (blocksOf st.facts).list
  rules : st.store.notifyRules.list.Perm (rulesOf st.facts).list
  reports : ∀ ids ∈ st.store.reports, ids.list.Perm (reportsOf st.facts).list
  keys : ∀ (messageId : MessageId) (groups : Groups), st.store.messages[messageId]? = some groups →
    (groups.list.map ReactionGroup.key).Perm (keysOf st.facts messageId).list
  people :
    ∀ (messageId : MessageId) (groups : Groups), st.store.messages[messageId]? = some groups →
    ∀ group ∈ groups.list, group.userIds.list.Perm (reactedOf st.facts messageId group.key).list ∧
      group.count = (reactedOf st.facts messageId group.key).list.length

end Agreeing

section Runs
variable {meId : UserId} {facts : Facts} {st st' : State} {event : Event} {events : List Event}

end Runs

section Examples

instance {meId : UserId} {st : State} {items : List Item} : Decidable (SureAll meId st items) :=
  inferInstanceAs
    (Decidable (∀ item ∈ items, ∀ value ∈ view st.store item, Sure meId st item value))

instance {meId : UserId} {st rest : State} {part : Part} : Decidable (Fits meId st rest part) :=
  inferInstanceAs (Decidable (∀ item ∈ part.items ++ st.facts.list, ∀ value ∈ part.tells item,
    view st.store item = some value ∨ Sure meId rest item value))

instance {meId : UserId} {rest : State} {r : NotifyRule} {on : Bool} :
    Decidable (WrittenAsShown meId rest r on) :=
  inferInstanceAs (Decidable (∀ value ∈ view rest.store (.rule r),
    value = on ∨ Has rest.fetches (answers (.rule r) on) ∨
      Has rest.requests (puts meId (.rule r) value)))

instance {st : State} {n : ℕ} {tell : Tell} {item : Item} : Decidable (SaysSo st n tell item) :=
  inferInstanceAs (Decidable (tell.tells st.facts item = some (holds st item) ∨
    ∃ later ∈ st.owed.eraseIdx n, later.tells st.facts item = some (holds st item)))

instance {meId : UserId} {st : State} : (event : Event) → Decidable (Unraced meId st event)
  | .make i => inferInstanceAs (Decidable (∀ request ∈ (st.requests[i]? : Option Request),
      ∀ r ∈ (request.change.item meId).ruleOf,
      WrittenAsShown meId (st.besides i) r request.change.value))
  | .elsewhere item on =>
    inferInstanceAs (Decidable (∀ r ∈ item.ruleOf, WrittenAsShown meId st r on))
  | .fail i => inferInstanceAs (Decidable (∀ request ∈ (st.requests[i]? : Option Request),
      st.store.takes request.before = true → Fits meId st (st.besides i) request.before ∧
        ∀ value ∈ request.before.tells (request.change.item meId),
          Sure meId (st.besides i) (request.change.item meId) value))
  | .land j =>
    inferInstanceAs (Decidable (∀ e ∈ (st.fetches[j]? : Option (Asked × Option Part)), ∀ part ∈ e.2,
      st.store.takes part = true → Fits meId st (st.unread j) part))
  | .miss j => inferInstanceAs (Decidable (∀ e ∈ (st.fetches[j]? : Option (Asked × Option Part)),
      SureAll meId (st.unread j) (missed st e)))
  | .publish n => inferInstanceAs (Decidable (∀ tell ∈ st.owed[n]?, ∀ item ∈ tell.items st.facts,
      SaysSo st n tell item))
  | .change .. | .refuse _ | .confirm _ | .read _ | .deliver _ | .ask .. | .serve _ | .letGo _ =>
    isTrue trivial

/-- Someone blocked, one rule, and somebody's reaction on a message. -/
def before : Facts :=
  (((∅ : Facts).putIn (.blocked 5) true).putIn (.rule ⟨6, none⟩) true).putIn (.reaction 7 1 2) true

end Examples
end Linger.Changes
