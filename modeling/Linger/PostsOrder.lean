import Linger.PostsWriter

/-! A message's id is given when its post comes to wait for the writer, and its place when it
has it: in which runs the two orders are one, and what a read marker then covers. -/
namespace Linger.Posts
open FiniteMap StepMachine TaskPool
open Linger.Messages (Body)

/-- A post that waits for the writer to post to this room with an id below this. -/
def Task.waitsBefore (roomId : RoomId) (id : MessageId) (task : Task) : Bool :=
  task.waits.any fun waiting => waiting.1 = roomId && waiting.2 < id

/-- Whoever takes the writer got its id before any that still waits to post to its room. -/
def MintsInTurn (st : Server) : Act → Prop
  | .step i =>
    match st.tasks[i]? with
    | some (.posts post _ (.waits _ id now)) =>
      post.checkIn st.nonces now = none →
        ¬ Others st.tasks i (Task.waitsBefore post.roomId id)
    | _ => True
  | .closes pollId isOpen _ _ =>
    match st.find pollId with
    | some poll => isOpen = true → ¬ Has st.tasks (Task.waitsBefore poll.roomId st.minted)
    | none => True
  | _ => True

/-- What was committed is in the order of its ids, whoever waits is behind it, and a marker
is at a message there was when it was moved. -/
structure Ordered (st : Server) : Prop where
  sorted : st.messages.Pairwise fun a b => a.roomId = b.roomId → a.id < b.id
  behind : All st.tasks fun task => ∀ roomId id, task.waits = some (roomId, id) →
    ∀ message ∈ st.messages, message.roomId = roomId → message.id < id
  marking : All st.tasks fun task => ∀ userId roomId id, task = .marks userId roomId id →
    ∃ message ∈ st.messages, message.id = id ∧ message.roomId = roomId
  marked : ∀ marker ∈ st.markers, marker.seen ≤ st.messages.length ∧
    ∃ message ∈ st.messages.take marker.seen,
      message.id = marker.lastReadId ∧ message.roomId = marker.roomId

theorem mem_advanceReadMarker {markers : List Marker} {userId : UserId} {roomId : RoomId}
    {id : MessageId} {seen : ℕ} {marker : Marker}
    (h : marker ∈ advanceReadMarker markers userId roomId id seen) :
    marker ∈ markers ∨ marker = ⟨userId, roomId, id, seen⟩ := by
  unfold advanceReadMarker at h
  split at h
  · obtain ⟨old, hmem, he⟩ := List.mem_map.mp h
    split at he
    · next hsame =>
      simp only [Bool.and_eq_true, decide_eq_true_eq] at hsame
      right
      rw [← he, ← hsame.1.1, ← hsame.1.2]
    · exact .inl (he ▸ hmem)
  · rcases List.mem_append.mp h with hold | hone
    · exact .inl hold
    · exact .inr (List.mem_singleton.mp hone)

namespace Ordered
variable {u : Unicode} {st st' : Server} {i : ℕ} {task : Task} {post : Post} {since : ℕ}

theorem goOn (h : Ordered st) (hwaits : task.waits = none)
    (hmarks : ∀ userId roomId id, task = .marks userId roomId id →
      ∃ message ∈ st.messages, message.id = id ∧ message.roomId = roomId) :
    Ordered (st.goOn i task) where
  sorted := h.sorted
  behind := h.behind.insert i fun roomId id hw => by rw [hwaits] at hw; cases hw
  marking := h.marking.insert i hmarks
  marked := h.marked

theorem posts (h : Ordered st) {place : Place}
    (hwaits : (Task.posts post since place).waits = none) :
    Ordered (st.goOn i (.posts post since place)) :=
  h.goOn hwaits fun _ _ _ he => by cases he

theorem ends (h : Ordered st) : Ordered (st.ends i) :=
  ⟨h.sorted, h.behind.erase i, h.marking.erase i, h.marked⟩

theorem answered (h : Ordered st) {answer : Answer} : Ordered (st.answered i post since answer) :=
  ⟨h.sorted, h.behind.erase i, h.marking.erase i, h.marked⟩

/-- The id a post gets is beyond those of all messages. -/
theorem mints (h : Ordered st) (hm : Minted st) {body : Body} :
    Ordered (({ st with minted := st.minted + 1 } : Server).goOn i
      (.posts post since (.waits body st.minted st.now))) where
  sorted := h.sorted
  behind := h.behind.insert i fun roomId id hw message hmem _ => by
    cases hw
    exact hm.saved message hmem
  marking := h.marking.insert i fun _ _ _ he => by cases he
  marked := h.marked

/-- A message is saved whose id is beyond those of its room, and below those that wait to
post to it. -/
theorem saves (h : Ordered st) {tasks : FMap ℕ Task} {message : Saved}
    (hnew : ∀ m ∈ st.messages, m.roomId = message.roomId → m.id < message.id)
    (hbehind : All tasks fun task => ∀ roomId id, task.waits = some (roomId, id) →
      (message.roomId = roomId → message.id < id) ∧
      ∀ m ∈ st.messages, m.roomId = roomId → m.id < id)
    (hmarking : All tasks fun task => ∀ userId roomId id, task = .marks userId roomId id →
      ∃ message ∈ st.messages, message.id = id ∧ message.roomId = roomId)
    (hmarked : ∀ marker ∈ st'.markers, marker ∈ st.markers ∨
      marker.lastReadId = message.id ∧ marker.roomId = message.roomId ∧
        marker.seen = st.messages.length + 1)
    (hm : st'.messages = st.messages ++ [message]) (htasks : st'.tasks = tasks) : Ordered st' where
  sorted := by
    rw [hm]
    refine List.pairwise_append.mpr ⟨h.sorted, List.pairwise_singleton _ _, ?_⟩
    intro a ha b hb hroom
    rw [List.mem_singleton.mp hb] at hroom ⊢
    exact hnew a ha hroom
  behind := by
    rw [htasks, hm]
    refine hbehind.imp fun task ht roomId id hw m hmem hroom => ?_
    rcases List.mem_append.mp hmem with hold | hone
    · exact (ht roomId id hw).2 m hold hroom
    · rw [List.mem_singleton.mp hone] at hroom ⊢
      exact (ht roomId id hw).1 hroom
  marking := by
    rw [htasks, hm]
    refine hmarking.imp fun task ht userId roomId id he => ?_
    obtain ⟨m, hmem, hm⟩ := ht userId roomId id he
    exact ⟨m, List.mem_append_left _ hmem, hm⟩
  marked := by
    rw [hm]
    intro marker hmarker
    rw [List.length_append, List.length_singleton]
    rcases hmarked marker hmarker with hold | ⟨hid, hroom, hseen⟩
    · obtain ⟨hle, m, hmem, hm⟩ := h.marked marker hold
      refine ⟨Nat.le_succ_of_le hle, m, ?_, hm⟩
      rw [List.take_append_of_le_length hle]
      exact hmem
    · refine ⟨le_of_eq hseen, message, ?_, hid.symm, hroom.symm⟩
      rw [hseen, List.take_of_length_le (by simp)]
      exact List.mem_append_right _ (List.mem_singleton_self _)

theorem write (h : Ordered st) {body : Body} {id : MessageId} {now : ℕ}
    (hi : st.tasks[i]? = some (.posts post since (.waits body id now)))
    (hok : post.checkIn st.nonces now = none →
      ¬ Others st.tasks i (Task.waitsBefore post.roomId id)) (hm : Minted st) :
    Ordered (write st i post since body id now) := by
  unfold Posts.write
  split
  · exact h.posts rfl
  · next hnone =>
    have hbehind : All (st.tasks.insert i (.posts post since (.answers id))) fun task =>
        ∀ roomId id', task.waits = some (roomId, id') → (post.roomId = roomId → id < id') ∧
          ∀ m ∈ st.messages, m.roomId = roomId → m.id < id' := by
      intro j t hj roomId id' hw
      rw [insert_at] at hj
      split at hj
      · cases hj
        cases hw
      · next hne =>
        refine ⟨?_, h.behind j t hj roomId id' hw⟩
        rintro rfl
        have hid : t.mintedId = some id' := by rw [Task.mintedId, hw]; rfl
        have hapart : id' ≠ id := by
          rintro rfl
          exact hne (hm.apart j i t _ id' hj hi hid rfl)
        have hnot : ¬ id' < id := fun hlt => hok hnone <| others_iff.mpr
          ⟨j, t, hne, hj, by simp [Task.waitsBefore, hw, hlt]⟩
        exact lt_of_le_of_ne (not_lt.mp hnot) hapart.symm
    have hmarking : All (st.tasks.insert i (.posts post since (.answers id))) fun task =>
        ∀ userId roomId id, task = .marks userId roomId id →
          ∃ message ∈ st.messages, message.id = id ∧ message.roomId = roomId :=
      h.marking.insert i fun _ _ _ he => by cases he
    refine h.saves (h.behind i _ hi _ _ rfl) hbehind hmarking (fun marker hmarker => ?_) rfl rfl
    refine Or.imp_right (fun he => ?_) (mem_advanceReadMarker hmarker)
    rw [he]
    exact ⟨rfl, rfl, rfl⟩

theorem advance (h : Ordered st) (hm : Minted st) (hi : st.tasks[i]? = some task)
    (hok : MintsInTurn st (.step i)) (hs : advance u st i task = st') : Ordered st' := by
  unfold MintsInTurn at hok
  simp only [hi] at hok
  cases task with
  | asks post archived =>
    rcases ask_cases hs with ⟨id, -, rfl⟩ | ⟨-, ⟨error, rfl⟩ | rfl | ⟨body, -, -, rfl⟩⟩
    · exact h.posts rfl
    · exact h.answered
    · exact h.posts rfl
    · exact h.posts rfl
  | posts post since place =>
    cases place with
    | checks seen left =>
      rcases check_cases hs with
        ⟨error, rfl⟩ | rfl | ⟨id, rest, -, -, rfl⟩ | ⟨-, body, -, rfl | ⟨parent, rfl⟩⟩
      · exact h.answered
      · exact h.ends
      · exact h.posts rfl
      · exact h.posts rfl
      · exact h.posts rfl
    | repliesTo body parent =>
      rcases replyTo_cases hs with ⟨error, rfl⟩ | rfl
      · exact h.answered
      · exact h.posts rfl
    | mints body => exact hs ▸ h.mints hm
    | waits body id now => exact hs ▸ h.write hi hok hm
    | finds id =>
      rcases alreadyPosted_cases hs with ⟨error, rfl, -⟩ | rfl
      · exact h.answered
      · exact h.answered
    | answers id => exact hs ▸ h.answered
  | reads userId roomId id =>
    rcases reads_cases hs with rfl | ⟨hthere, rfl⟩
    · exact h.ends
    · refine h.goOn rfl fun _ _ _ he => ?_
      cases he
      exact hthere
  | marks userId roomId id =>
    cases hs
    refine ⟨h.sorted, h.behind.erase i, h.marking.erase i, fun marker hmarker => ?_⟩
    rcases mem_advanceReadMarker hmarker with hold | rfl
    · exact h.marked marker hold
    · obtain ⟨message, hmem, hid, hroom⟩ := h.marking i _ hi _ _ _ rfl
      have hthere : message ∈ st.messages.take st.messages.length := by
        rw [List.take_length]
        exact hmem
      exact ⟨le_rfl, message, hthere, hid, hroom⟩

theorem close (h : Ordered st) (hm : Minted st) {pollId : MessageId} {isOpen : Bool}
    {question : Body} {winners : List Body}
    (hok : MintsInTurn st (.closes pollId isOpen question winners)) :
    Ordered (close st pollId isOpen question winners) := by
  unfold MintsInTurn at hok
  unfold Posts.close
  split
  · exact h
  · next poll hfound =>
    simp only [hfound] at hok
    split
    · next hopen =>
      have hbehind : All st.tasks fun task => ∀ roomId id, task.waits = some (roomId, id) →
          (poll.roomId = roomId → st.minted < id) ∧
          ∀ m ∈ st.messages, m.roomId = roomId → m.id < id := by
        intro j t hj roomId id hw
        refine ⟨?_, h.behind j t hj roomId id hw⟩
        rintro rfl
        -- nobody waits with an id that was not given yet
        have hid : t.mintedId = some id := by rw [Task.mintedId, hw]; rfl
        have hlt := (hm.waiting j t hj id hid).1
        exact absurd (has_iff.mpr ⟨j, t, hj, by simp [Task.waitsBefore, hw, hlt]⟩) (hok hopen)
      exact h.saves (fun m hmem _ => hm.saved m hmem) hbehind h.marking
        (fun marker hmarker => .inl hmarker) rfl rfl
    · exact h

theorem step {act : Act} (h : Ordered st) (hm : Minted st) (hok : MintsInTurn st act)
    (hs : step u st act = some st') : Ordered st' := by
  cases act with
  | passes ms =>
    cases hs
    exact ⟨h.sorted, h.behind, h.marking, h.marked⟩
  | files id attachment =>
    rw [Posts.step] at hs
    split at hs
    · cases hs
      exact ⟨h.sorted, h.behind, h.marking, h.marked⟩
    · cases hs
  | asks i post archived =>
    obtain ⟨-, rfl⟩ := begin_cases hs
    exact h.goOn rfl fun _ _ _ he => by cases he
  | closes pollId isOpen question winners =>
    cases hs
    exact h.close hm hok
  | reads i userId roomId id =>
    obtain ⟨-, rfl⟩ := begin_cases hs
    exact h.goOn rfl fun _ _ _ he => by cases he
  | step i =>
    obtain ⟨task, hi, hs⟩ := Option.map_eq_some_iff.mp hs
    exact h.advance hm hi hok hs
  | lost i =>
    cases hs
    exact h.ends

theorem start : Ordered (machine u).start :=
  ⟨List.Pairwise.nil, all_empty, all_empty, fun _ hmem => by cases hmem⟩

end Ordered

/-- In every run in which whoever takes the writer was given its id in turn, the messages of
a room are committed in the order of their ids, and no message that is committed after a
marker was moved is covered by it. -/
theorem posted_later_greater_id {u : Unicode} {acts : List Act} {st : Server}
    (hm : (machine u).Meets MintsInTurn acts) (hr : (machine u).run acts = some st) :
    (st.messages.Pairwise fun a b => a.roomId = b.roomId → a.id < b.id) ∧
    ∀ marker ∈ st.markers, ∀ message ∈ st.messages.drop marker.seen,
      message.roomId = marker.roomId → marker.lastReadId < message.id := by
  have hstep (s : Server) (act : Act) (t : Server) (h : Minted s ∧ Ordered s)
      (hok : MintsInTurn s act) (hs : step u s act = some t) : Minted t ∧ Ordered t :=
    ⟨h.1.step hs, h.2.step h.1 hok hs⟩
  have h : Minted st ∧ Ordered st :=
    (machine u).invariant_of_meets (And.intro Minted.start Ordered.start) hstep hm hr
  refine ⟨h.2.sorted, fun marker hmarker message hmem hroom => ?_⟩
  obtain ⟨-, read, hread, hid, hsame⟩ := h.2.marked marker hmarker
  have hsorted := h.2.sorted
  rw [← List.take_append_drop marker.seen st.messages] at hsorted
  have hlt := (List.pairwise_append.mp hsorted).2.2 read hread message hmem
  rw [← hid]
  exact hlt (hsame.trans hroom.symm)

instance (st : Server) (act : Act) : Decidable (MintsInTurn st act) := by
  cases act <;> unfold MintsInTurn <;> dsimp only <;> (try split) <;> infer_instance

/-- Only blanks are blank. -/
def plain : Unicode := ⟨fun c => c = ' ', fun c => c ≠ ' '⟩

def saying (authorId : UserId) (nonce : Option Nonce) (body : String)
    (attachmentIds : List AttachmentId) : Post :=
  ⟨authorId, 1, nonce, .message body.toList attachmentIds none⟩

/-- Two people post to a room at once, the second reads what the first said, and says
something more. -/
def twoPosts : List Act :=
  [.asks 0 (saying 7 none "hi" []) false, .asks 1 (saying 8 none "so" []) false, .step 0, .step 1,
    .step 0, .step 1, .step 0, .step 1, .step 0, .reads 2 8 1 0, .step 2, .step 2, .step 1,
    .step 0, .step 1]

theorem posted_later_greater_id_twoPosts :
    ∃ st, (machine plain).run twoPosts = some st ∧ st.messages.map Saved.id = [0, 1] ∧
      ((st.messages.Pairwise fun a b => a.roomId = b.roomId → a.id < b.id) ∧
      ∀ marker ∈ st.markers, ∀ message ∈ st.messages.drop marker.seen,
        message.roomId = marker.roomId → marker.lastReadId < message.id) :=
  ⟨_, rfl, rfl, @posted_later_greater_id plain twoPosts _ (by decide +kernel) rfl⟩

/-- The second to get an id takes the writer first, and a third reads what it said: what the
first said was read before it was there. -/
theorem unseen_read :
    ∃ st, (machine plain).run [.asks 0 (saying 7 none "hi" []) false,
        .asks 1 (saying 8 none "so" []) false, .step 0, .step 1, .step 0, .step 1, .step 0, .step 1,
        .step 1, .reads 2 9 1 1, .step 2, .step 2, .step 0] = some st ∧
      st.messages.map Saved.id = [1, 0] ∧ ⟨9, 1, 1, 1⟩ ∈ st.markers ∧
      ∃ message ∈ st.messages.drop 1, message.roomId = 1 ∧ message.id = 0 :=
  ⟨_, rfl, rfl, by decide +kernel, _, List.mem_singleton_self _, rfl, rfl⟩

end Linger.Posts
