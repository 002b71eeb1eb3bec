import Linger.PutIn
import Linger.PostsOrder
import Linger.PostsOnce

/-! What a message carries: the uploads it was posted with and no others, in every run in
which they are still free when it is saved. -/
namespace Linger.Posts
open FiniteMap StepMachine TaskPool
open Linger.Messages (Body)

/-- A post that is past its checks names no upload twice, and has words or an upload. -/
def Place.Whole (post : Post) : Place → Prop
  | .checks seen left => seen ++ left = post.attachmentIds ∧ seen.Nodup
  | .repliesTo body _ => post.attachmentIds.Nodup ∧ (body ≠ [] ∨ post.attachmentIds ≠ [])
  | .mints body => post.attachmentIds.Nodup ∧ (body ≠ [] ∨ post.attachmentIds ≠ [])
  | .waits body _ _ => post.attachmentIds.Nodup ∧ (body ≠ [] ∨ post.attachmentIds ≠ [])
  | .finds _ => True
  | .answers _ => True

/-- An upload is on the message that names it, and a message has on it what it names. -/
structure Whole (st : Server) : Prop where
  carried : ∀ (a : AttachmentId) attachment id, st.attachments[a]? = some attachment →
    attachment.messageId = some id → ∃ message ∈ st.messages,
      message.id = id ∧ a ∈ message.attachmentIds
  carries : ∀ message ∈ st.messages, ∀ a ∈ message.attachmentIds,
    ∃ attachment, st.attachments[a]? = some attachment ∧ attachment.messageId = some message.id
  said : ∀ message ∈ st.messages, message.body ≠ [] ∨ message.attachmentIds ≠ []
  places : All st.tasks fun task => ∀ post since place, task = .posts post since place →
    place.Whole post

namespace Whole
variable {u : Unicode} {st st' : Server} {i : ℕ} {task : Task} {post : Post} {since : ℕ}
  {place : Place}

theorem goOn (h : Whole st) (htask : ∀ post since place, task = .posts post since place →
    place.Whole post) : Whole (st.goOn i task) :=
  ⟨h.carried, h.carries, h.said, h.places.insert i htask⟩

theorem posts (h : Whole st) (hplace : place.Whole post) :
    Whole (st.goOn i (.posts post since place)) :=
  h.goOn fun _ _ _ he => by cases he; exact hplace

theorem ends (h : Whole st) : Whole (st.ends i) :=
  ⟨h.carried, h.carries, h.said, h.places.erase i⟩

theorem answered (h : Whole st) {answer : Answer} : Whole (st.answered i post since answer) :=
  ⟨h.carried, h.carries, h.said, h.places.erase i⟩

theorem write (h : Whole st) {body : Body} {id : MessageId} {now : ℕ}
    (hi : st.tasks[i]? = some (.posts post since (.waits body id now)))
    (hfree : post.checkIn st.nonces now = none → ∀ a ∈ post.attachmentIds,
      (st.attachments[a]?).any (fun attachment => attachment.messageId.isNone) = true) :
    Whole (write st i post since body id now) := by
  obtain ⟨hnodup, hsaid⟩ := h.places i _ hi _ _ _ rfl
  unfold Posts.write
  split
  · exact h.posts trivial
  · next hnone =>
    have hthere (a : AttachmentId) (ha : a ∈ post.attachmentIds) : ∃ attachment,
        st.attachments[a]? = some attachment ∧ attachment.messageId = none := by
      have hany := hfree hnone a ha
      rcases hx : st.attachments[a]? with _ | attachment
      · rw [hx] at hany
        cases hany
      · rw [hx] at hany
        exact ⟨attachment, rfl, Option.isNone_iff_eq_none.mp hany⟩
    have hat (a : AttachmentId) := foldl_modify_at (fun _ => attach id) hnodup st.attachments a
    refine ⟨fun a attachment x hx hid => ?_, fun message hmem a ha => ?_, fun message hmem => ?_,
      h.places.insert i fun _ _ _ he => by cases he; trivial⟩
    · have hx : (post.attachmentIds.foldl (fun attachments attachmentId =>
          attachments.modify attachmentId (attach id)) st.attachments)[a]? = some attachment := hx
      rw [hat a] at hx
      split at hx
      · next ha =>
        obtain ⟨old, hold, hnot⟩ := hthere a ha
        rw [hold, Option.map_some, attach, hnot] at hx
        cases hx
        cases hid
        exact ⟨_, List.mem_append_right _ (List.mem_singleton_self _), rfl, ha⟩
      · obtain ⟨message, hmem, hm⟩ := h.carried a attachment x hx hid
        exact ⟨message, List.mem_append_left _ hmem, hm⟩
    · show ∃ attachment, (post.attachmentIds.foldl (fun attachments attachmentId =>
          attachments.modify attachmentId (attach id)) st.attachments)[a]? = some attachment ∧ _
      rw [hat a]
      rcases List.mem_append.mp hmem with hold | hone
      · obtain ⟨attachment, hx, hid⟩ := h.carries message hold a ha
        have hnot : a ∉ post.attachmentIds := fun hin => by
          obtain ⟨other, hother, hfree⟩ := hthere a hin
          cases hx.symm.trans hother
          rw [hfree] at hid
          cases hid
        rw [if_neg hnot]
        exact ⟨attachment, hx, hid⟩
      · rw [List.mem_singleton.mp hone] at ha ⊢
        obtain ⟨old, hold, hnot⟩ := hthere a ha
        refine ⟨attach id old, by rw [if_pos ha, hold]; rfl, ?_⟩
        rw [attach, hnot]
        rfl
    · rcases List.mem_append.mp hmem with hold | hone
      · exact h.said message hold
      · rw [List.mem_singleton.mp hone]
        exact hsaid

theorem advance (h : Whole st) (hi : st.tasks[i]? = some task) (hok : PostsWell st (.step i))
    (hs : advance u st i task = st') : Whole st' := by
  unfold PostsWell at hok
  simp only [hi] at hok
  cases task with
  | asks post archived =>
    rcases ask_cases hs with ⟨id, -, rfl⟩ | ⟨-, ⟨error, rfl⟩ | rfl | ⟨body, hbody, hnil, rfl⟩⟩
    · exact h.posts trivial
    · exact h.answered
    · exact h.posts ⟨rfl, List.nodup_nil⟩
    · exact h.posts ⟨hnil ▸ List.nodup_nil, .inl hbody⟩
  | posts post since place =>
    have hwhole := h.places i _ hi _ _ _ rfl
    cases place with
    | checks seen left =>
      obtain ⟨hids, hnodup⟩ := hwhole
      rcases check_cases hs with
        ⟨error, rfl⟩ | rfl | ⟨id, rest, rfl, hnew, rfl⟩ | ⟨rfl, body, hsaid, rfl | ⟨parent, rfl⟩⟩
      · exact h.answered
      · exact h.ends
      · refine h.posts ⟨by rw [List.append_assoc]; exact hids, ?_⟩
        exact hnodup.append (List.nodup_singleton id) (List.disjoint_singleton.mpr hnew)
      · rw [List.append_nil] at hids
        exact h.posts ⟨hids ▸ hnodup, hsaid⟩
      · rw [List.append_nil] at hids
        exact h.posts ⟨hids ▸ hnodup, hsaid⟩
    | repliesTo body parent =>
      rcases replyTo_cases hs with ⟨error, rfl⟩ | rfl
      · exact h.answered
      · exact h.posts hwhole
    | mints body =>
      cases hs
      exact ⟨h.carried, h.carries, h.said, h.places.insert i fun _ _ _ he => by
        cases he; exact hwhole⟩
    | waits body id now => exact hs ▸ h.write hi hok.2
    | finds id =>
      rcases alreadyPosted_cases hs with ⟨error, rfl, -⟩ | rfl
      · exact h.answered
      · exact h.answered
    | answers id => exact hs ▸ h.answered
  | reads userId roomId id =>
    rcases reads_cases hs with rfl | ⟨-, rfl⟩
    · exact h.ends
    · exact h.goOn fun _ _ _ he => by cases he
  | marks userId roomId id =>
    cases hs
    exact ⟨h.carried, h.carries, h.said, h.places.erase i⟩

theorem closedWords_ne_nil (question : Body) (winners : List Body) :
    closedWords question winners ≠ [] := by
  have hquoted : "” ".toList ≠ [] := by decide
  exact List.append_ne_nil_of_left_ne_nil (List.append_ne_nil_of_right_ne_nil _ hquoted) _

theorem close (h : Whole st) {pollId : MessageId} {isOpen : Bool} {question : Body}
    {winners : List Body} : Whole (close st pollId isOpen question winners) := by
  unfold Posts.close
  split
  · exact h
  · split
    · refine ⟨fun a attachment id hx hid => ?_, fun message hmem a ha => ?_,
        fun message hmem => ?_, h.places⟩
      · obtain ⟨message, hmem, hm⟩ := h.carried a attachment id hx hid
        exact ⟨message, List.mem_append_left _ hmem, hm⟩
      · rcases List.mem_append.mp hmem with hold | hone
        · exact h.carries message hold a ha
        · rw [List.mem_singleton.mp hone] at ha
          cases ha
      · rcases List.mem_append.mp hmem with hold | hone
        · exact h.said message hold
        · rw [List.mem_singleton.mp hone]
          exact .inl (closedWords_ne_nil question winners)
    · exact h

/-- What becomes of an upload that is on no message. -/
theorem files (h : Whole st) {id : AttachmentId} {attachment : Option Attachment}
    (hfree : free st.attachments[id]? = true) (hnew : free attachment = true) :
    Whole { st with attachments := st.attachments.alter id fun _ => attachment } := by
  refine ⟨fun a one x hx hid => ?_, fun message hmem a ha => ?_, h.said, h.places⟩
  · have hx : (st.attachments.alter id fun _ => attachment)[a]? = some one := hx
    rw [alter_at] at hx
    split at hx
    · rw [hx, free, Option.all_some, hid] at hnew
      cases hnew
    · exact h.carried a one x hx hid
  · obtain ⟨one, hx, hid⟩ := h.carries message hmem a ha
    show ∃ one, (st.attachments.alter id fun _ => attachment)[a]? = some one ∧ _
    rw [alter_at]
    split
    · next he =>
      rw [← he, hx, free, Option.all_some, hid] at hfree
      cases hfree
    · exact ⟨one, hx, hid⟩

theorem step {act : Act} (h : Whole st) (hok : PostsWell st act)
    (hs : step u st act = some st') : Whole st' := by
  cases act with
  | passes ms =>
    cases hs
    exact ⟨h.carried, h.carries, h.said, h.places⟩
  | files id attachment =>
    rw [Posts.step] at hs
    split at hs
    · next hboth =>
      cases hs
      rw [Bool.and_eq_true] at hboth
      exact h.files hboth.1 hboth.2
    · cases hs
  | asks i post archived =>
    obtain ⟨-, rfl⟩ := begin_cases hs
    exact h.goOn fun _ _ _ he => by cases he
  | closes pollId isOpen question winners =>
    cases hs
    exact h.close
  | reads i userId roomId id =>
    obtain ⟨-, rfl⟩ := begin_cases hs
    exact h.goOn fun _ _ _ he => by cases he
  | step i =>
    obtain ⟨task, hi, hs⟩ := Option.map_eq_some_iff.mp hs
    exact h.advance hi hok hs
  | lost i =>
    cases hs
    exact h.ends

theorem start : Whole (machine u).start :=
  ⟨fun _ _ _ hx => (by simp [machine] at hx), fun _ hmem => (by cases hmem),
    fun _ hmem => (by cases hmem), all_empty⟩

end Whole

/-- In every run in which retries come while their key is kept and messages are saved while
the uploads they name are free: a key saves one message at most, whoever posts with it and is
answered with a message is answered with that one, and is so answered if it was there when
they asked; and what was posted carries the uploads it named and no others, and says
something or carries one. -/
theorem posting_exactly_once_and_whole {u : Unicode} {acts : List Act} {st : Server}
    (hm : (machine u).Meets PostsWell acts) (hr : (machine u).run acts = some st) :
    (∀ author nonce, (st.messages.filter fun message =>
      message.key = some (author, nonce)).length ≤ 1) ∧
    (∀ outcome ∈ st.outcomes, ∀ message ∈ st.messages, message.key = outcome.post.key →
      message.key.isSome = true → (∀ id, outcome.answer = .message id → id = message.id) ∧
        (message ∈ st.messages.take outcome.since → message.roomId = outcome.post.roomId →
          outcome.answer = .message message.id)) ∧
    ∀ message ∈ st.messages, (∀ a : AttachmentId,
      (st.attachments[a]?).bind Attachment.messageId = some message.id ↔
        a ∈ message.attachmentIds) ∧ (message.body ≠ [] ∨ message.attachmentIds ≠ []) := by
  have hstep (s : Server) (act : Act) (t : Server) (h : Minted s ∧ Once s ∧ Whole s)
      (hok : PostsWell s act) (hs : step u s act = some t) : Minted t ∧ Once t ∧ Whole t :=
    ⟨h.1.step hs, h.2.1.step h.1 hok hs, h.2.2.step hok hs⟩
  have hstart : Minted (machine u).start ∧ Once (machine u).start ∧ Whole (machine u).start :=
    ⟨Minted.start, Once.start, Whole.start⟩
  obtain ⟨hminted, honce, hwhole⟩ := (machine u).invariant_of_meets hstart hstep hm hr
  refine ⟨fun author nonce => honce.filter_key_le (author, nonce),
    fun outcome ho message hmem hkey hsome => ⟨fun id he => ?_, ?_⟩,
    fun message hmem => ⟨fun a => ⟨fun hat => ?_, fun ha => ?_⟩, hwhole.said message hmem⟩⟩
  · obtain ⟨other, hother, rfl, hokey⟩ := (honce.outcomes outcome ho).named id he
    rw [honce.eq_of_key hmem hother (hkey.trans hokey.symm) hsome]
  · exact fun htake hroom => (honce.outcomes outcome ho).found message htake hkey hsome hroom
  · obtain ⟨attachment, hx, hid⟩ := Option.bind_eq_some_iff.mp hat
    obtain ⟨other, hother, hoid, ha⟩ := hwhole.carried a attachment _ hx hid
    rw [← List.inj_on_of_nodup_map hminted.nodup hother hmem hoid]
    exact ha
  · obtain ⟨attachment, hx, hid⟩ := hwhole.carries message hmem a ha
    rw [hx]
    exact hid

instance (st : Server) (post : Post) : Decidable (post.Soon st) :=
  inferInstanceAs (Decidable (∀ message ∈ st.messages, message.key = post.key →
    message.key.isSome = true → st.now ≤ message.createdAt + nonceKeptMs))

instance (st : Server) (act : Act) : Decidable (PostsWell st act) := by
  refine Act.casesOn act ?_ ?_ ?_ ?_ ?_ ?_ ?_ <;> intros <;> unfold PostsWell <;> dsimp only <;>
    (try refine putIn st.tasks fun tasks => ?_) <;> (try split) <;> infer_instance

/-- A photo that is posted with no words, its answer lost, and its retry a day later. -/
def photoTwice : List Act :=
  [.files 5 (some ⟨7, true, none, false⟩), .asks 0 (saying 7 (some "k") "" [5]) false, .step 0,
    .step 0, .step 0, .step 0, .step 0, .lost 0, .passes 86400000,
    .asks 1 (saying 7 (some "k") "" [5]) true, .step 1, .step 1]

theorem posting_exactly_once_and_whole_photoTwice :
    ∃ st, (machine plain).run photoTwice = some st ∧
      st.outcomes.map Outcome.answer = [.message 0] ∧ st.messages.length = 1 ∧
      ((∀ author nonce, (st.messages.filter fun message =>
        message.key = some (author, nonce)).length ≤ 1) ∧
      (∀ outcome ∈ st.outcomes, ∀ message ∈ st.messages, message.key = outcome.post.key →
        message.key.isSome = true → (∀ id, outcome.answer = .message id → id = message.id) ∧
          (message ∈ st.messages.take outcome.since → message.roomId = outcome.post.roomId →
            outcome.answer = .message message.id)) ∧
      ∀ message ∈ st.messages, (∀ a : AttachmentId,
        (st.attachments[a]?).bind Attachment.messageId = some message.id ↔
          a ∈ message.attachmentIds) ∧ (message.body ≠ [] ∨ message.attachmentIds ≠ [])) :=
  ⟨_, rfl, rfl, rfl, @posting_exactly_once_and_whole plain photoTwice _ (by decide +kernel) rfl⟩

/-- Two posts of one photo with no words that both find it free: the second is saved with
nothing on it, and answered. -/
theorem photo_posted_twice :
    ∃ st message, (machine plain).run [.files 5 (some ⟨7, true, none, false⟩),
        .asks 0 (saying 7 (some "k") "" [5]) false, .asks 1 (saying 7 (some "l") "" [5]) false,
        .step 0, .step 1, .step 0, .step 1, .step 0, .step 1, .step 0, .step 1, .step 0, .step 1,
        .step 0, .step 1] = some st ∧
      st.outcomes.map Outcome.answer = [.message 0, .message 1] ∧ st.find 1 = some message ∧
      message.body = [] ∧ message.attachmentIds = [5] ∧
      (st.attachments[5]?).bind Attachment.messageId = some 0 :=
  ⟨_, _, rfl, rfl, rfl, rfl, rfl, rfl⟩

end Linger.Posts
