import Linger.Posts

/-! What each step leaves a post at, and that no id is given twice: not to two messages, nor to
one and a post that waits for the writer. -/
namespace Linger.Posts
open FiniteMap StepMachine TaskPool
open Linger.Messages (Body)

section Cases
variable {u : Unicode} {st st' : Server} {i : ℕ} {post : Post} {since : ℕ}

theorem asWords_ne_nil (question : Body) (choices : List Body) : asWords question choices ≠ [] :=
  List.append_ne_nil_of_left_ne_nil
    (List.append_ne_nil_of_right_ne_nil _ (List.cons_ne_nil _ _)) _

theorem ask_cases {archived : Bool} (h : ask st i post archived = st') :
    (∃ id, (post.nonce.bind fun nonce => posted st.nonces post.authorId nonce st.now) = some id ∧
      st' = st.goOn i (.posts post st.messages.length (.finds id))) ∨
    (post.nonce.bind fun nonce => posted st.nonces post.authorId nonce st.now) = none ∧
      ((∃ error, st' = st.answered i post st.messages.length (.refused error)) ∨
      st' = st.goOn i (.posts post st.messages.length (.checks [] post.attachmentIds)) ∨
      ∃ body, body ≠ [] ∧ post.attachmentIds = [] ∧
        st' = st.goOn i (.posts post st.messages.length (.mints body))) := by
  unfold ask at h
  split at h
  · next id hposted => exact .inl ⟨id, hposted, h.symm⟩
  · next hposted =>
    refine .inr ⟨hposted, ?_⟩
    split at h
    · exact .inl ⟨_, h.symm⟩
    · split at h
      · next body attachmentIds replyTo hwords =>
        have hids : post.attachmentIds = attachmentIds := by rw [Post.attachmentIds, hwords]
        split at h
        · exact .inl ⟨_, h.symm⟩
        · exact .inr (.inl (hids ▸ h.symm))
      · exact .inl ⟨_, h.symm⟩
      · next question choices hwords =>
        have hids : post.attachmentIds = [] := by rw [Post.attachmentIds, hwords]
        exact .inr (.inr ⟨_, asWords_ne_nil question choices, hids, h.symm⟩)

theorem Unicode.messageBody_ne_nil {body said : Body} (h : u.messageBody body = .ok said) :
    said ≠ [] := by
  unfold messageBody at h
  split at h
  · cases h
  · split at h
    · next hseen =>
      cases h
      rintro rfl
      cases hseen
    · cases h

theorem check_cases {seen left : List AttachmentId} (h : check u st i post since seen left = st') :
    (∃ error, st' = st.answered i post since (.refused error)) ∨
    st' = st.ends i ∨
    (∃ id rest, left = id :: rest ∧ id ∉ seen ∧
      st' = st.goOn i (.posts post since (.checks (seen ++ [id]) rest))) ∨
    left = [] ∧ ∃ body, (body ≠ [] ∨ post.attachmentIds ≠ []) ∧
      (st' = st.goOn i (.posts post since (.mints body)) ∨
      ∃ parent, st' = st.goOn i (.posts post since (.repliesTo body parent))) := by
  unfold check at h
  split at h
  · next id rest =>
    split at h
    · exact .inl ⟨_, h.symm⟩
    · next hseen =>
      split at h
      · exact .inl ⟨_, h.symm⟩
      · exact .inr (.inr (.inl ⟨id, rest, rfl, by simpa using hseen, h.symm⟩))
  · split at h
    · exact .inr (.inl h.symm)
    · next body attachmentIds replyTo hwords =>
      have hids : post.attachmentIds = attachmentIds := by rw [Post.attachmentIds, hwords]
      split at h
      · exact .inl ⟨_, h.symm⟩
      · next said hsaid =>
        have hwhole : said ≠ [] ∨ post.attachmentIds ≠ [] := by
          split at hsaid
          · exact .inl (Unicode.messageBody_ne_nil hsaid)
          · next hnone => exact .inr (hids ▸ fun he => hnone (List.isEmpty_iff.mpr he))
        refine .inr (.inr (.inr ⟨rfl, said, hwhole, ?_⟩))
        split at h
        · exact .inl h.symm
        · exact .inr ⟨_, h.symm⟩

theorem replyTo_cases {body : Body} {parent : MessageId}
    (h : replyTo st i post since body parent = st') :
    (∃ error, st' = st.answered i post since (.refused error)) ∨
    st' = st.goOn i (.posts post since (.mints body)) := by
  unfold replyTo at h
  split at h
  · exact .inl ⟨_, h.symm⟩
  · split at h
    · exact .inl ⟨_, h.symm⟩
    · exact .inr h.symm

/-- A post that was saved is answered with its message, or its room was another. -/
theorem alreadyPosted_cases {id : MessageId} (h : alreadyPosted st i post since id = st') :
    (∃ error, st' = st.answered i post since (.refused error) ∧
      ∀ message ∈ st.messages, message.id = id → message.roomId = post.roomId →
        ∃ other ∈ st.messages, other.id = id ∧ other.roomId ≠ post.roomId) ∨
    st' = st.answered i post since (.message id) := by
  unfold alreadyPosted at h
  split at h
  · next hnone =>
    refine .inl ⟨_, h.symm, fun message hmem hid => ?_⟩
    have hne := List.find?_eq_none.mp hnone message hmem
    exact absurd hid (by simpa using hne)
  · next message hfound =>
    split at h
    · next hroom =>
      have hid : message.id = id := by simpa using List.find?_some hfound
      exact .inl ⟨_, h.symm, fun _ _ _ _ => ⟨message, List.mem_of_find?_eq_some hfound, hid, hroom⟩⟩
    · exact .inr h.symm

theorem reads_cases {userId : UserId} {roomId : RoomId} {id : MessageId}
    (h : advance u st i (.reads userId roomId id) = st') :
    st' = st.ends i ∨ (∃ message ∈ st.messages, message.id = id ∧ message.roomId = roomId) ∧
      st' = st.goOn i (.marks userId roomId id) := by
  rw [advance] at h
  split at h
  · exact .inl h.symm
  · next message hfound =>
    split at h
    · exact .inl h.symm
    · next hroom =>
      have hid : message.id = id := by simpa using List.find?_some hfound
      exact .inr ⟨⟨message, List.mem_of_find?_eq_some hfound, hid, not_not.mp hroom⟩, h.symm⟩

theorem begin_cases {task : Task} (h : st.begin i task = some st') :
    st.tasks[i]? = none ∧ st' = st.goOn i task := by
  unfold Server.begin at h
  split at h
  · cases h
  · next hnone =>
    cases h
    exact ⟨Option.not_isSome_iff_eq_none.mp hnone, rfl⟩

end Cases

/-- The room and the id a post waits with for the writer. -/
def Task.waits : Task → Option (RoomId × MessageId)
  | .posts post _ (.waits _ id _) => some (post.roomId, id)
  | _ => none

def Task.mintedId (task : Task) : Option MessageId := task.waits.map Prod.snd

/-- No id is given twice. -/
structure Minted (st : Server) : Prop where
  saved : ∀ message ∈ st.messages, message.id < st.minted
  nodup : (st.messages.map Saved.id).Nodup
  waiting : All st.tasks fun task => ∀ id, task.mintedId = some id →
    id < st.minted ∧ ∀ message ∈ st.messages, message.id ≠ id
  apart : Apart st.tasks Task.mintedId

namespace Minted
variable {u : Unicode} {st st' : Server} {i : ℕ} {task : Task} {post : Post} {since : ℕ}

theorem goOn (h : Minted st) (htask : task.mintedId = none) : Minted (st.goOn i task) where
  saved := h.saved
  nodup := h.nodup
  waiting := h.waiting.insert i fun id hid => by rw [htask] at hid; cases hid
  apart := h.apart.insert i fun id hid => by rw [htask] at hid; cases hid

theorem ends (h : Minted st) : Minted (st.ends i) :=
  ⟨h.saved, h.nodup, h.waiting.erase i, h.apart.erase i⟩

theorem answered (h : Minted st) {answer : Answer} : Minted (st.answered i post since answer) :=
  ⟨h.saved, h.nodup, h.waiting.erase i, h.apart.erase i⟩

/-- The next id is given to a post. -/
theorem mints (h : Minted st) {body : Body} :
    Minted (({ st with minted := st.minted + 1 } : Server).goOn i
      (.posts post since (.waits body st.minted st.now))) where
  saved message hmem := Nat.lt_succ_of_lt (h.saved message hmem)
  nodup := h.nodup
  waiting := by
    have hthem : All st.tasks fun task => ∀ id, task.mintedId = some id →
        id < st.minted + 1 ∧ ∀ message ∈ st.messages, message.id ≠ id :=
      h.waiting.imp fun task ht id hid => ⟨Nat.lt_succ_of_lt (ht id hid).1, (ht id hid).2⟩
    refine hthem.insert i fun id hid => ?_
    cases hid
    exact ⟨Nat.lt_succ_self _, fun message hmem => Nat.ne_of_lt (h.saved message hmem)⟩
  apart := by
    refine h.apart.insert i fun id hid j t hj ht => ?_
    cases hid
    exact absurd (h.waiting j t hj _ ht).1 (lt_irrefl _)

/-- A message is saved under an id that no message has and no post waits with. -/
theorem saves (h : Minted st) {tasks : FMap ℕ Task} {minted : MessageId} {message : Saved}
    (hlt : message.id < minted) (hle : st.minted ≤ minted)
    (hnew : ∀ m ∈ st.messages, m.id ≠ message.id)
    (hwaiting : All tasks fun task => ∀ id, task.mintedId = some id → id ≠ message.id ∧
      id < st.minted ∧ ∀ m ∈ st.messages, m.id ≠ id)
    (hapart : Apart tasks Task.mintedId) (hm : st'.messages = st.messages ++ [message])
    (hmint : st'.minted = minted) (htasks : st'.tasks = tasks) : Minted st' where
  saved m hmem := by
    rw [hm] at hmem
    rw [hmint]
    rcases List.mem_append.mp hmem with hold | hone
    · exact lt_of_lt_of_le (h.saved m hold) hle
    · rw [List.mem_singleton.mp hone]
      exact hlt
  nodup := by
    rw [hm, List.map_append]
    refine h.nodup.append (List.nodup_singleton _) fun id hold hone => ?_
    obtain ⟨m, hmem, rfl⟩ := List.mem_map.mp hold
    exact hnew m hmem (List.mem_singleton.mp hone)
  waiting := by
    rw [htasks, hmint, hm]
    refine hwaiting.imp fun task ht id hid => ⟨lt_of_lt_of_le (ht id hid).2.1 hle, ?_⟩
    intro m hmem
    rcases List.mem_append.mp hmem with hold | hone
    · exact (ht id hid).2.2 m hold
    · rw [List.mem_singleton.mp hone]
      exact (ht id hid).1.symm
  apart := htasks ▸ hapart

theorem write (h : Minted st) {body : Body} {id : MessageId} {now : ℕ}
    (hi : st.tasks[i]? = some (.posts post since (.waits body id now))) :
    Minted (write st i post since body id now) := by
  unfold Posts.write
  split
  · exact h.goOn rfl
  · obtain ⟨hlt, hnew⟩ := h.waiting i _ hi id rfl
    have hwaiting : All (st.tasks.insert i (.posts post since (.answers id))) fun task =>
        ∀ id', task.mintedId = some id' →
          id' ≠ id ∧ id' < st.minted ∧ ∀ m ∈ st.messages, m.id ≠ id' := by
      intro j t hj id' hid'
      rw [insert_at] at hj
      split at hj
      · cases hj
        cases hid'
      · next hne =>
        refine ⟨?_, h.waiting j t hj id' hid'⟩
        rintro rfl
        exact hne (h.apart j i t _ id' hj hi hid' rfl)
    have hapart : Apart (st.tasks.insert i (.posts post since (.answers id))) Task.mintedId :=
      h.apart.insert i fun id' hid' => by cases hid'
    exact h.saves hlt le_rfl hnew hwaiting hapart rfl rfl rfl

theorem advance (h : Minted st) (hi : st.tasks[i]? = some task)
    (hs : advance u st i task = st') : Minted st' := by
  cases task with
  | asks post archived =>
    rcases ask_cases hs with ⟨id, -, rfl⟩ | ⟨-, ⟨error, rfl⟩ | rfl | ⟨body, -, -, rfl⟩⟩
    · exact h.goOn rfl
    · exact h.answered
    · exact h.goOn rfl
    · exact h.goOn rfl
  | posts post since place =>
    cases place with
    | checks seen left =>
      rcases check_cases hs with
        ⟨error, rfl⟩ | rfl | ⟨id, rest, -, -, rfl⟩ | ⟨-, body, -, rfl | ⟨parent, rfl⟩⟩
      · exact h.answered
      · exact h.ends
      · exact h.goOn rfl
      · exact h.goOn rfl
      · exact h.goOn rfl
    | repliesTo body parent =>
      rcases replyTo_cases hs with ⟨error, rfl⟩ | rfl
      · exact h.answered
      · exact h.goOn rfl
    | mints body => exact hs ▸ h.mints
    | waits body id now => exact hs ▸ h.write hi
    | finds id =>
      rcases alreadyPosted_cases hs with ⟨error, rfl, -⟩ | rfl
      · exact h.answered
      · exact h.answered
    | answers id => exact hs ▸ h.answered
  | reads userId roomId id =>
    rcases reads_cases hs with rfl | ⟨-, rfl⟩
    · exact h.ends
    · exact h.goOn rfl
  | marks userId roomId id =>
    cases hs
    exact ⟨h.saved, h.nodup, h.waiting.erase i, h.apart.erase i⟩

theorem close (h : Minted st) {pollId : MessageId} {isOpen : Bool} {question : Body}
    {winners : List Body} : Minted (close st pollId isOpen question winners) := by
  unfold Posts.close
  split
  · exact h
  · split
    · have hthem : All st.tasks fun task => ∀ id, task.mintedId = some id → id ≠ st.minted ∧
          id < st.minted ∧ ∀ m ∈ st.messages, m.id ≠ id :=
        h.waiting.imp fun task ht id hid => ⟨Nat.ne_of_lt (ht id hid).1, ht id hid⟩
      exact h.saves (Nat.lt_succ_self _) (Nat.le_succ _)
        (fun m hmem => Nat.ne_of_lt (h.saved m hmem)) hthem h.apart rfl rfl rfl
    · exact h

theorem step {act : Act} (h : Minted st) (hs : step u st act = some st') : Minted st' := by
  cases act with
  | passes ms =>
    cases hs
    exact ⟨h.saved, h.nodup, h.waiting, h.apart⟩
  | files id attachment =>
    rw [Posts.step] at hs
    split at hs
    · cases hs
      exact ⟨h.saved, h.nodup, h.waiting, h.apart⟩
    · cases hs
  | asks i post archived =>
    obtain ⟨-, rfl⟩ := begin_cases hs
    exact h.goOn rfl
  | closes pollId isOpen question winners =>
    cases hs
    exact h.close
  | reads i userId roomId id =>
    obtain ⟨-, rfl⟩ := begin_cases hs
    exact h.goOn rfl
  | step i =>
    obtain ⟨task, hi, hs⟩ := Option.map_eq_some_iff.mp hs
    exact h.advance hi hs
  | lost i =>
    cases hs
    exact h.ends

theorem start : Minted (machine u).start :=
  ⟨fun _ hmem => (by cases hmem), List.nodup_nil, all_empty,
    fun i j t k a hi => by simp [machine] at hi⟩

end Minted

end Linger.Posts
