import Linger.PostsWriter

/-! A post and its retries: while a key is remembered, whoever asks again with it is answered
with the message it saved, and saves no other. -/
namespace Linger.Posts
open FiniteMap StepMachine TaskPool
open Linger.Messages (Body)

/-- Who posted with which key. -/
def Post.key (post : Post) : Option (UserId × Nonce) :=
  post.nonce.map fun nonce => (post.authorId, nonce)

def Saved.key (message : Saved) : Option (UserId × Nonce) :=
  message.nonce.map fun nonce => (message.authorId, nonce)

/-- It is no longer since the message was saved that this is a retry of than keys are kept. -/
def Post.Soon (st : Server) (post : Post) : Prop :=
  ∀ message ∈ st.messages, message.key = post.key → message.key.isSome = true →
    st.now ≤ message.createdAt + nonceKeptMs

/-- Retries come while their key is kept, and the uploads a message is saved with are still
there then, and on no message. -/
def PostsWell (st : Server) : Act → Prop
  | .step i =>
    match st.tasks[i]? with
    | some (.asks post _) => post.Soon st
    | some (.posts post _ (.waits _ _ now)) =>
      post.Soon st ∧ (post.checkIn st.nonces now = none → ∀ attachmentId ∈ post.attachmentIds,
        (st.attachments[attachmentId]?).any (fun attachment => attachment.messageId.isNone) = true)
    | _ => True
  | _ => True

section Keys
variable {nonces : List Key} {authorId : UserId} {nonce : Nonce} {now : ℕ} {id : MessageId}

theorem posted_mem (h : posted nonces authorId nonce now = some id) :
    ∃ key ∈ nonces, key.authorId = authorId ∧ key.nonce = nonce ∧ key.messageId = id := by
  obtain ⟨key, hfound, hid⟩ := Option.map_eq_some_iff.mp h
  have hkey := List.find?_some hfound
  simp only [Bool.and_eq_true, decide_eq_true_eq] at hkey
  exact ⟨key, List.mem_of_find?_eq_some hfound, hkey.1.1, hkey.1.2, hid⟩

theorem posted_of_mem {key : Key} (hmem : key ∈ nonces)
    (hkept : now ≤ key.createdAt + nonceKeptMs) :
    posted nonces key.authorId key.nonce now ≠ none := by
  intro hnone
  have hnot := List.find?_eq_none.mp (Option.map_eq_none_iff.mp hnone) key hmem
  exact hnot (by simp [hkept])

theorem mem_forgetOld {key : Key} (hmem : key ∈ nonces)
    (hkept : now ≤ key.createdAt + nonceKeptMs) :
    key ∈ forgetOld nonces now :=
  List.mem_filter.mpr ⟨hmem, decide_eq_true hkept⟩

end Keys

/-- Where a post stands by what it found: one that asked when the message it is a retry of
was there has found it. -/
structure Place.Right (messages : List Saved) (clock : ℕ) (post : Post) (since : ℕ)
    (place : Place) : Prop where
  since_le : since ≤ messages.length
  found : ∀ message ∈ messages.take since, message.key = post.key →
    message.key.isSome = true → place = .finds message.id
  named : ∀ id, place = .finds id ∨ place = .answers id →
    ∃ message ∈ messages, message.id = id ∧ message.key = post.key
  early : ∀ body id now, place = .waits body id now → now ≤ clock

structure Outcome.Right (messages : List Saved) (outcome : Outcome) : Prop where
  since_le : outcome.since ≤ messages.length
  found : ∀ message ∈ messages.take outcome.since, message.key = outcome.post.key →
    message.key.isSome = true → message.roomId = outcome.post.roomId →
    outcome.answer = .message message.id
  named : ∀ id, outcome.answer = .message id →
    ∃ message ∈ messages, message.id = id ∧ message.key = outcome.post.key

section Right
variable {messages messages' : List Saved} {clock clock' : ℕ} {post : Post} {since : ℕ}
  {place : Place} {outcome : Outcome}

theorem take_of_starts (hm : messages <+: messages') (hle : since ≤ messages.length) :
    messages'.take since = messages.take since := by
  obtain ⟨more, rfl⟩ := hm
  exact List.take_append_of_le_length hle

theorem Place.Right.mono (h : place.Right messages clock post since) (hm : messages <+: messages')
    (hn : clock ≤ clock') : place.Right messages' clock' post since where
  since_le := h.since_le.trans hm.length_le
  found := by
    rw [take_of_starts hm h.since_le]
    exact h.found
  named id hplace := by
    obtain ⟨message, hmem, hid⟩ := h.named id hplace
    exact ⟨message, hm.subset hmem, hid⟩
  early body id now hplace := (h.early body id now hplace).trans hn

theorem Outcome.Right.mono (h : outcome.Right messages) (hm : messages <+: messages') :
    outcome.Right messages' where
  since_le := h.since_le.trans hm.length_le
  found := by
    rw [take_of_starts hm h.since_le]
    exact h.found
  named id hanswer := by
    obtain ⟨message, hmem, hid⟩ := h.named id hanswer
    exact ⟨message, hm.subset hmem, hid⟩

/-- A post goes on that had found nothing, and finds nothing. -/
theorem Place.Right.next (h : place.Right messages clock post since) {next : Place}
    (hplace : ∀ id, place ≠ .finds id) (hnext : ∀ id, next ≠ .finds id ∧ next ≠ .answers id)
    (hearly : ∀ body id now, next = .waits body id now → now ≤ clock) :
    next.Right messages clock post since where
  since_le := h.since_le
  found message hmem hkey hsome := absurd (h.found message hmem hkey hsome) (hplace _)
  named id he := he.elim (fun he => absurd he (hnext id).1) fun he => absurd he (hnext id).2
  early := hearly

theorem Place.Right.refused (h : place.Right messages clock post since)
    (hplace : ∀ id, place ≠ .finds id) (error : ApiError) :
    Outcome.Right messages ⟨post, since, .refused error⟩ where
  since_le := h.since_le
  found message hmem hkey hsome _ := absurd (h.found message hmem hkey hsome) (hplace _)
  named id he := by cases he

end Right

/-- A message with a key has it remembered until it is old, what is remembered was saved, and
no key has saved two. -/
structure Once (st : Server) : Prop where
  keys : ∀ message ∈ st.messages, ∀ nonce, message.nonce = some nonce →
    ⟨message.authorId, nonce, message.id, message.createdAt⟩ ∈ st.nonces ∨
      message.createdAt + nonceKeptMs < st.now
  kept : ∀ key ∈ st.nonces, ∃ message ∈ st.messages,
    message.id = key.messageId ∧ message.key = some (key.authorId, key.nonce)
  once : st.messages.Pairwise fun a b => a.key = b.key → a.key = none
  places : All st.tasks fun task => ∀ post since place, task = .posts post since place →
    place.Right st.messages st.now post since
  outcomes : ∀ outcome ∈ st.outcomes, outcome.Right st.messages

namespace Once
variable {u : Unicode} {st st' : Server} {i : ℕ} {task : Task} {post : Post} {since : ℕ}
  {place : Place}

theorem eq_of_key (h : Once st) {a b : Saved} (ha : a ∈ st.messages) (hb : b ∈ st.messages)
    (hkey : a.key = b.key) (hsome : a.key.isSome = true) : a = b := by
  by_contra hne
  have hsymm : Std.Symm fun a b : Saved => a.key = b.key → a.key = none :=
    ⟨fun a b hab hba => hba.trans (hab hba.symm)⟩
  have hnone := h.once.forall ha hb hne hkey
  rw [hnone] at hsome
  cases hsome

/-- A key has saved one message at most. -/
theorem filter_key_le (h : Once st) (key : UserId × Nonce) :
    (st.messages.filter fun message => message.key = some key).length ≤ 1 := by
  have hpair := h.once.filter fun message => decide (message.key = some key)
  have hall (message : Saved)
      (hmem : message ∈ st.messages.filter fun message => message.key = some key) :
      message.key = some key := of_decide_eq_true (List.mem_filter.mp hmem).2
  generalize st.messages.filter (fun message => decide (message.key = some key)) = found at *
  rcases found with _ | ⟨a, _ | ⟨b, rest⟩⟩
  · exact Nat.zero_le _
  · exact le_rfl
  -- two would have one key
  have ha := hall a List.mem_cons_self
  have hb := hall b (List.mem_cons_of_mem _ List.mem_cons_self)
  have hnone := (List.pairwise_cons.mp hpair).1 b List.mem_cons_self (ha.trans hb.symm)
  rw [ha] at hnone
  cases hnone

theorem goOn (h : Once st) (htask : ∀ post since place, task = .posts post since place →
    place.Right st.messages st.now post since) : Once (st.goOn i task) :=
  ⟨h.keys, h.kept, h.once, h.places.insert i htask, h.outcomes⟩

theorem posts (h : Once st) (hplace : place.Right st.messages st.now post since) :
    Once (st.goOn i (.posts post since place)) :=
  h.goOn fun _ _ _ he => by cases he; exact hplace

theorem ends (h : Once st) : Once (st.ends i) :=
  ⟨h.keys, h.kept, h.once, h.places.erase i, h.outcomes⟩

theorem answered (h : Once st) {answer : Answer}
    (ho : Outcome.Right st.messages ⟨post, since, answer⟩) :
    Once (st.answered i post since answer) := by
  refine ⟨h.keys, h.kept, h.once, h.places.erase i, fun outcome hmem => ?_⟩
  rcases List.mem_append.mp hmem with hold | hone
  · exact h.outcomes outcome hold
  · rw [List.mem_singleton.mp hone]
    exact ho

/-- While a message's key is kept, asking for it finds that message. -/
theorem posted_eq (h : Once st) {message : Saved} {nonce : Nonce} {now : ℕ} (hnow : now ≤ st.now)
    (hmem : message ∈ st.messages) (hnonce : message.nonce = some nonce)
    (hsoon : st.now ≤ message.createdAt + nonceKeptMs) :
    posted st.nonces message.authorId nonce now ≠ none ∧
      posted (forgetOld st.nonces now) message.authorId nonce now ≠ none := by
  have hrow := (h.keys message hmem nonce hnonce).resolve_right (not_lt.mpr hsoon)
  have hkept := hnow.trans hsoon
  have hfound := posted_of_mem hrow hkept
  have hthere := posted_of_mem (mem_forgetOld hrow hkept) hkept
  exact ⟨hfound, hthere⟩

/-- What is found under a key was saved under it. -/
theorem named (h : Once st) {nonces : List Key} (hsub : nonces ⊆ st.nonces) {nonce : Nonce}
    {now : ℕ} {id : MessageId} (hnonce : post.nonce = some nonce)
    (hfound : posted nonces post.authorId nonce now = some id) :
    ∃ message ∈ st.messages, message.id = id ∧ message.key = post.key := by
  obtain ⟨key, hmem, hauthor, hkey, rfl⟩ := posted_mem hfound
  obtain ⟨message, hmessage, hid, hmkey⟩ := h.kept key (hsub hmem)
  refine ⟨message, hmessage, hid, ?_⟩
  rw [hmkey, hauthor, hkey, Post.key, hnonce]
  rfl

/-- What a post with a key asks: found, it is the message, and a message that was saved with
the key is found. -/
theorem asked (h : Once st) {archived : Bool} (hsoon : post.Soon st)
    (hs : ask st i post archived = st') : Once st' := by
  have hfinds (id : MessageId)
      (hfound : (post.nonce.bind fun nonce => posted st.nonces post.authorId nonce st.now) =
        some id) : (Place.finds id).Right st.messages st.now post st.messages.length := by
    obtain ⟨nonce, hnonce, hposted⟩ := Option.bind_eq_some_iff.mp hfound
    obtain ⟨message, hmem, hid, hkey⟩ := h.named (List.Subset.refl _) hnonce hposted
    refine ⟨le_rfl, fun other hother hokey hsome => ?_, fun id' he => ?_,
      fun _ _ _ he => by cases he⟩
    · rw [List.take_length] at hother
      rw [h.eq_of_key hother hmem (hokey.trans hkey.symm) hsome, hid]
    · rcases he with he | he
      · cases he
        exact ⟨message, hmem, hid, hkey⟩
      · cases he
  have hnew (hnone : (post.nonce.bind fun nonce => posted st.nonces post.authorId nonce st.now) =
        none) (place : Place) (hplace : ∀ id, place ≠ .finds id ∧ place ≠ .answers id)
      (hearly : ∀ body id now, place ≠ .waits body id now) :
      place.Right st.messages st.now post st.messages.length := by
    refine ⟨le_rfl, fun message hmem hkey hsome => ?_, fun id he => ?_, fun _ _ _ he => ?_⟩
    · rw [List.take_length] at hmem
      obtain ⟨nonce, hnonce⟩ : ∃ nonce, message.nonce = some nonce := by
        simpa [Saved.key, Option.isSome_iff_exists] using hsome
      have hpost : post.authorId = message.authorId ∧ post.nonce = some nonce := by
        simpa [Saved.key, Post.key, hnonce, eq_comm, and_comm] using hkey
      have hfound := (h.posted_eq le_rfl hmem hnonce (hsoon message hmem hkey hsome)).1
      rw [hpost.2, Option.bind_some, hpost.1] at hnone
      exact absurd hnone hfound
    · exact he.elim (fun he => absurd he (hplace id).1) fun he => absurd he (hplace id).2
    · exact absurd he (hearly _ _ _)
  rcases ask_cases hs with ⟨id, hfound, rfl⟩ | ⟨hnone, ⟨error, rfl⟩ | rfl | ⟨body, -, -, rfl⟩⟩
  · exact h.posts (hfinds id hfound)
  · have hright := hnew hnone (.checks [] []) (fun _ => ⟨by simp, by simp⟩) (by simp)
    exact h.answered (hright.refused (by simp) error)
  · exact h.posts (hnew hnone _ (fun _ => ⟨by simp, by simp⟩) (by simp))
  · exact h.posts (hnew hnone _ (fun _ => ⟨by simp, by simp⟩) (by simp))

/-- A message is saved that no other has the key of. -/
theorem saves (h : Once st) {message : Saved} (hm : st'.messages = st.messages ++ [message])
    (hnow : st'.now = st.now)
    (hkeys : ∀ m ∈ st.messages, ∀ nonce, m.nonce = some nonce →
      ⟨m.authorId, nonce, m.id, m.createdAt⟩ ∈ st.nonces →
      ⟨m.authorId, nonce, m.id, m.createdAt⟩ ∈ st'.nonces ∨ m.createdAt + nonceKeptMs < st.now)
    (hkey : ∀ nonce, message.nonce = some nonce →
      ⟨message.authorId, nonce, message.id, message.createdAt⟩ ∈ st'.nonces)
    (hkept : ∀ key ∈ st'.nonces, key ∈ st.nonces ∨
      message.id = key.messageId ∧ message.key = some (key.authorId, key.nonce))
    (honce : ∀ m ∈ st.messages, m.key = message.key → m.key = none)
    (hplaces : All st'.tasks fun task => ∀ post since place, task = .posts post since place →
      place.Right st'.messages st.now post since)
    (houtcomes : st'.outcomes = st.outcomes) : Once st' where
  keys m hmem nonce hnonce := by
    rw [hm] at hmem
    rw [hnow]
    rcases List.mem_append.mp hmem with hold | hone
    · rcases h.keys m hold nonce hnonce with hrow | hlate
      · exact hkeys m hold nonce hnonce hrow
      · exact .inr hlate
    · rw [List.mem_singleton.mp hone] at hnonce ⊢
      exact .inl (hkey nonce hnonce)
  kept key hmem := by
    rw [hm]
    rcases hkept key hmem with hold | hone
    · obtain ⟨m, hmessage, hid⟩ := h.kept key hold
      exact ⟨m, List.mem_append_left _ hmessage, hid⟩
    · exact ⟨message, List.mem_append_right _ (List.mem_singleton_self _), hone⟩
  once := by
    rw [hm]
    refine List.pairwise_append.mpr ⟨h.once, List.pairwise_singleton _ _, fun a ha b hb => ?_⟩
    rw [List.mem_singleton.mp hb]
    exact honce a ha
  places := hnow ▸ hplaces
  outcomes outcome hmem := by
    rw [hm]
    rw [houtcomes] at hmem
    exact (h.outcomes outcome hmem).mono (List.prefix_append _ _)

theorem write (h : Once st) {body : Body} {id : MessageId} {now : ℕ}
    (hi : st.tasks[i]? = some (.posts post since (.waits body id now))) (hsoon : post.Soon st) :
    Once (write st i post since body id now) := by
  have hright := h.places i _ hi _ _ _ rfl
  have hnow : now ≤ st.now := hright.early _ _ _ rfl
  have hnone (message : Saved) (hmem : message ∈ st.messages.take since)
      (hkey : message.key = post.key) (hsome : message.key.isSome = true) : False := by
    cases hright.found message hmem hkey hsome
  unfold Posts.write
  split
  -- Its nonce is remembered: the message it names is answered again.
  · next found hfound =>
    obtain ⟨nonce, hnonce, hposted⟩ := Option.bind_eq_some_iff.mp hfound
    obtain ⟨message, hmem, hid, hkey⟩ := h.named List.filter_sublist.subset hnonce hposted
    refine h.posts ⟨hright.since_le, fun m hm hk hs => (hnone m hm hk hs).elim, fun id' he => ?_,
      fun _ _ _ he => by cases he⟩
    rcases he with he | he
    · cases he
      exact ⟨message, hmem, hid, hkey⟩
    · cases he
  -- It is not: this is the only message of its key, and its row is written with it.
  · next hcheck =>
    let message : Saved :=
      ⟨id, post.roomId, post.authorId, post.nonce, body, post.attachmentIds, now⟩
    have hothers : All st.tasks fun task => ∀ post since place, task = .posts post since place →
        place.Right (st.messages ++ [message]) st.now post since :=
      h.places.imp fun _ ht post since place he =>
        (ht post since place he).mono (List.prefix_append _ _) le_rfl
    refine h.saves rfl rfl (fun m _ nonce hnonce hrow => ?_) (fun nonce hnonce => ?_)
      (fun key hmem => ?_) (fun m hmem hkey => ?_) (hothers.insert i fun p s place he => ?_) rfl
    · show _ ∈ post.remember st.nonces id now ∨ _
      unfold Post.remember
      split
      · exact .inl hrow
      -- A nonce that is forgotten by now is older than nonces are kept.
      · by_cases hkept : now ≤ m.createdAt + nonceKeptMs
        · exact .inl (List.mem_append_left _ (mem_forgetOld hrow hkept))
        · exact .inr (lt_of_lt_of_le (not_le.mp hkept) hnow)
    · have hpost : post.nonce = some nonce := hnonce
      show _ ∈ post.remember st.nonces id now
      rw [Post.remember, hpost]
      exact List.mem_append_right _ (List.mem_singleton_self _)
    -- a nonce that is remembered was so before, or is this message's
    · have hmem : key ∈ post.remember st.nonces id now := hmem
      unfold Post.remember at hmem
      split at hmem
      · exact .inl hmem
      · next nonce hnonce =>
        rcases List.mem_append.mp hmem with hold | hone
        · exact .inl (List.mem_of_mem_filter hold)
        · rw [List.mem_singleton.mp hone]
          have hkey : post.nonce.map (fun nonce => (post.authorId, nonce)) =
              some (post.authorId, nonce) := by rw [hnonce]; rfl
          exact .inr ⟨rfl, hkey⟩
    · -- its key would have been found
      by_contra hsome
      have hkey : m.key = post.key := hkey
      have hsome := Option.isSome_iff_ne_none.mpr hsome
      obtain ⟨nonce, hnonce⟩ : ∃ nonce, m.nonce = some nonce := by
        simpa [Saved.key, Option.isSome_iff_exists] using hsome
      have hpost : post.authorId = m.authorId ∧ post.nonce = some nonce := by
        simpa [Saved.key, Post.key, hnonce, eq_comm, and_comm] using hkey
      have hfound := (h.posted_eq hnow hmem hnonce (hsoon m hmem hkey hsome)).2
      rw [Post.checkIn, hpost.2, Option.bind_some, hpost.1] at hcheck
      exact hfound hcheck
    -- the post's own place, of the message it has just saved
    · cases he
      refine ⟨?_, fun m hm hk hs => ?_, fun id' he => ?_, fun _ _ _ he => by cases he⟩
      · exact hright.since_le.trans (List.prefix_append _ _).length_le
      · rw [take_of_starts (List.prefix_append _ _) hright.since_le] at hm
        exact (hnone m hm hk hs).elim
      · rcases he with he | he
        · cases he
        · cases he
          exact ⟨message, List.mem_append_right _ (List.mem_singleton_self _), rfl, rfl⟩

/-- A post that found its message is answered with it. -/
theorem found (h : Once st) (hm : Minted st) {id : MessageId}
    (hright : (Place.finds id).Right st.messages st.now post since)
    (hs : alreadyPosted st i post since id = st') : Once st' := by
  obtain ⟨message, hmem, hid, hkey⟩ := hright.named id (.inl rfl)
  have hsame (m : Saved) (hmt : m ∈ st.messages.take since) (hmkey : m.key = post.key)
      (hsome : m.key.isSome = true) : m.id = id := by
    cases hright.found m hmt hmkey hsome
    rfl
  rcases alreadyPosted_cases hs with ⟨error, rfl, hroom⟩ | rfl
  · refine h.answered ⟨hright.since_le, fun m hmt hmkey hsome hr => ?_, fun _ he => by cases he⟩
    have hmid := hsame m hmt hmkey hsome
    obtain ⟨other, hother, hoid, hne⟩ := hroom m (List.mem_of_mem_take hmt) hmid hr
    have heq : other = m := List.inj_on_of_nodup_map hm.nodup hother (List.mem_of_mem_take hmt)
      (hoid.trans hmid.symm)
    exact absurd hr (heq ▸ hne)
  · refine h.answered ⟨hright.since_le, fun m hmt hmkey hsome _ => ?_, fun id' he => ?_⟩
    · exact congrArg Answer.message (hsame m hmt hmkey hsome).symm
    · cases he
      exact ⟨message, hmem, hid, hkey⟩

theorem advance (h : Once st) (hm : Minted st) (hi : st.tasks[i]? = some task)
    (hok : PostsWell st (.step i)) (hs : advance u st i task = st') : Once st' := by
  unfold PostsWell at hok
  simp only [hi] at hok
  cases task with
  | asks post archived => exact h.asked hok hs
  | posts post since place =>
    have hright := h.places i _ hi _ _ _ rfl
    cases place with
    | checks seen left =>
      have hnext (place : Place) (hplace : ∀ id, place ≠ .finds id ∧ place ≠ .answers id)
          (hearly : ∀ body id now, place ≠ .waits body id now) :
          Once (st.goOn i (.posts post since place)) :=
        h.posts (hright.next (by simp) hplace fun _ _ _ he => absurd he (hearly _ _ _))
      rcases check_cases hs with
        ⟨error, rfl⟩ | rfl | ⟨id, rest, -, -, rfl⟩ | ⟨-, body, -, rfl | ⟨parent, rfl⟩⟩
      · exact h.answered (hright.refused (by simp) error)
      · exact h.ends
      · exact hnext _ (by simp) (by simp)
      · exact hnext _ (by simp) (by simp)
      · exact hnext _ (by simp) (by simp)
    | repliesTo body parent =>
      rcases replyTo_cases hs with ⟨error, rfl⟩ | rfl
      · exact h.answered (hright.refused (by simp) error)
      · exact h.posts (hright.next (by simp) (by simp) (by simp))
    | mints body =>
      cases hs
      have hwaits : (Place.waits body st.minted st.now).Right st.messages st.now post since :=
        hright.next (by simp) (by simp) fun _ _ _ he => by cases he; exact le_rfl
      exact ⟨h.keys, h.kept, h.once, h.places.insert i fun _ _ _ he => by cases he; exact hwaits,
        h.outcomes⟩
    | waits body id now => exact hs ▸ h.write hi hok.1
    | finds id => exact h.found hm hright hs
    | answers id =>
      cases hs
      refine h.answered ⟨hright.since_le, fun m hmem hkey hsome _ => ?_, fun id' he => ?_⟩
      · cases hright.found m hmem hkey hsome
      · cases he
        exact hright.named id (.inr rfl)
  | reads userId roomId id =>
    rcases reads_cases hs with rfl | ⟨-, rfl⟩
    · exact h.ends
    · exact h.goOn fun _ _ _ he => by cases he
  | marks userId roomId id =>
    cases hs
    exact ⟨h.keys, h.kept, h.once, h.places.erase i, h.outcomes⟩

theorem close (h : Once st) {pollId : MessageId} {isOpen : Bool} {question : Body}
    {winners : List Body} : Once (close st pollId isOpen question winners) := by
  unfold Posts.close
  split
  · exact h
  · split
    · refine h.saves rfl rfl (fun _ _ _ _ hrow => .inl hrow) (fun _ he => by cases he)
        (fun _ hmem => .inl hmem) (fun _ _ hkey => hkey) ?_ rfl
      exact h.places.imp fun _ ht post since place he =>
        (ht post since place he).mono (List.prefix_append _ _) le_rfl
    · exact h

theorem step {act : Act} (h : Once st) (hm : Minted st) (hok : PostsWell st act)
    (hs : step u st act = some st') : Once st' := by
  cases act with
  | passes ms =>
    cases hs
    refine ⟨fun m hmem nonce hnonce => ?_, h.kept, h.once, ?_, h.outcomes⟩
    · exact Or.imp_right (fun hlate => Nat.lt_add_right ms hlate) (h.keys m hmem nonce hnonce)
    · exact h.places.imp fun _ ht post since place he =>
        (ht post since place he).mono List.prefix_rfl (Nat.le_add_right _ _)
  | files id attachment =>
    rw [Posts.step] at hs
    split at hs
    · cases hs
      exact ⟨h.keys, h.kept, h.once, h.places, h.outcomes⟩
    · cases hs
  | asks i post archived =>
    obtain ⟨-, rfl⟩ := begin_cases hs
    exact h.goOn fun _ _ _ he => by cases he
  | closes pollId isOpen question winners =>
    cases hs
    exact h.close
  | reads i userId roomId id =>
    obtain ⟨-, rfl⟩ := begin_cases hs
    exact h.goOn fun _ _ _ he => by cases he
  | step i =>
    obtain ⟨task, hi, hs⟩ := Option.map_eq_some_iff.mp hs
    exact h.advance hm hi hok hs
  | lost i =>
    cases hs
    exact h.ends

theorem start : Once (machine u).start :=
  ⟨fun _ hmem => (by cases hmem), fun _ hmem => (by cases hmem), List.Pairwise.nil, all_empty,
    fun _ hmem => by cases hmem⟩

end Once

end Linger.Posts
