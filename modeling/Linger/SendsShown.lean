import Linger.Sends

/-! Whether what was sent is on screen throughout: by its stand-in until it fails or its message is
in the stream, and by the message alone after. -/
namespace Linger.Sends
open FiniteMap StepMachine Names

def standIns (st : State) : List ℕ := st.stream.pending.map PendingSend.key

/-- A one-time key whose message is in the stream. -/
def Confirmed (st : State) (nonce : Nonce) : Prop :=
  ∃ post ∈ st.posts, post.nonce = some nonce ∧ post.message.id ∈ ids st.stream.messages

/-- What you sent is on screen throughout. -/
structure Shown (st : State) : Prop where
  standsIn : ∀ (key : ℕ) one, st.sends[key]? = some one → one.stage ≠ .failed →
    ¬Confirmed st one.nonce → key ∈ standIns st
  goes : ∀ (key : ℕ) one, st.sends[key]? = some one → one.stage = .failed ∨ Confirmed st one.nonce →
    key ∉ standIns st
  once : (ids st.stream.messages).Nodup
  takesOver : ∀ (id : MessageId) (key : ℕ), st.stream.sentAs[id]? = some key →
    ∃ one post, st.sends[key]? = some one ∧ post ∈ st.posts ∧ post.nonce = some one.nonce ∧
      post.message.id = id

/-- What holds in every state whatever is sent. -/
structure Sound (st : State) : Prop where
  waits : ∀ one ∈ st.stream.pending, ∃ sent : Send, st.sends[one.key]? = some sent ∧
    sent.stage = .open ∧ one.message = sent.said
  keys : (standIns st).Nodup
  started : ∀ (key : ℕ) one, st.sends[key]? = some one → key ≤ st.pendingSeq
  saved : ∀ id ∈ ids st.stream.messages, ∃ post ∈ st.posts, post.message.id = id
  postIds : (st.posts.map fun post => post.message.id).Nodup
  nonces : ∀ post ∈ st.posts, ∀ post' ∈ st.posts, post.nonce = post'.nonce →
    post.nonce.isSome = true → post = post'

/-- The one-time key of the send a stand-in is of. -/
def nonceOf (st : State) (one : PendingSend) : Option Nonce := (st.sends[one.key]?).map Send.nonce

/-- The condition on a step. A send starts with a one-time key whose message is not in the stream
yet; a message that is announced is said first by the stand-ins of the sends that posted it, and by
those alone; and no other send that is open has the one-time key of one that is answered. -/
def ToldApart (room : Room) (st : State) : Label → Prop
  | .sends _ _ _ nonce =>
    ∀ post ∈ st.posts, post.nonce = some nonce → post.message.id ∉ ids st.stream.messages
  | .announces id => ∀ post ∈ st.posts, post.message.id = id → post.message.said.roomId = room.id →
      ∀ one ∈ st.stream.pending,
        st.stream.pending.find? (fun one => matchesPending one.message post.message.said) =
          some one ↔ nonceOf st one = post.nonce
  | .answers key => ∀ one ∈ st.stream.pending, one.key ≠ key →
      nonceOf st one ≠ (st.sends[key]? : Option Send).map Send.nonce
  | _ => True

section Streams
variable {stream : RoomStream} {message : Message} {key : ℕ} {id : MessageId}

theorem sentAs_inStep (h : (inStep stream).sentAs[id]? = some key) :
    stream.sentAs[id]? = some key := by
  rw [inStep, Std.ExtTreeMap.getElem?_filter'] at h
  exact (Option.filter_eq_some_iff.mp h).1

theorem messages_announced :
    (announced stream message).messages = mergeMessage stream.messages message := by
  simp only [announced]
  split <;> rfl

theorem messages_answered :
    (answered stream key message).messages = mergeMessage stream.messages message := by
  simp only [answered]
  split <;> rfl

/-- What an announcement leaves pending: all but the first that says the same. -/
theorem mem_pending_announced {one : PendingSend}
    (hkeys : (stream.pending.map PendingSend.key).Nodup) :
    one ∈ (announced stream message).pending ↔ one ∈ stream.pending ∧
      stream.pending.find? (fun one => matchesPending one.message message.said) ≠ some one := by
  have hnodup : stream.pending.Nodup := List.Nodup.of_map _ hkeys
  simp only [announced]
  split
  · next hnone => simp [inStep, hnone]
  · next standIn hsome =>
    change one ∈ stream.pending.erase standIn ↔ _
    rw [hnodup.mem_erase_iff, hsome, and_comm]
    simp [eq_comm]

theorem mem_pending_answered {one : PendingSend}
    (hkeys : (stream.pending.map PendingSend.key).Nodup) :
    one ∈ (answered stream key message).pending ↔ one ∈ stream.pending ∧ one.key ≠ key := by
  simp only [answered]
  split
  · next hnone =>
    rw [List.find?_eq_none] at hnone
    change one ∈ stream.pending ↔ _
    exact ⟨fun hin => ⟨hin, by simpa using hnone one hin⟩, And.left⟩
  · next standIn hsome =>
    have hkey : standIn.key = key := by simpa using List.find?_some hsome
    have hin := List.mem_of_find?_eq_some hsome
    change one ∈ stream.pending.filter (fun one => one ≠ standIn) ↔ _
    rw [List.mem_filter, decide_eq_true_iff]
    refine and_congr_right fun hone => ⟨fun hne he => hne ?_, fun hne he => hne (he ▸ hkey)⟩
    exact List.inj_on_of_nodup_map hkeys hone hin (he.trans hkey.symm)

/-- A new stand-in that was taken over is one of those pending, and its message the one just
told. -/
theorem sentAs_announced {id : MessageId} {key : ℕ}
    (h : (announced stream message).sentAs[id]? = some key) :
    stream.sentAs[id]? = some key ∨ id = message.id ∧ ∃ one ∈ stream.pending,
      stream.pending.find? (fun one => matchesPending one.message message.said) = some one ∧
        one.key = key := by
  have h := sentAs_inStep h
  split at h
  · exact Or.inl h
  · next standIn hsome =>
    rw [insert_at] at h
    split at h
    · next hid =>
        exact Or.inr ⟨hid, standIn, List.mem_of_find?_eq_some hsome, hsome, Option.some.inj h⟩
    · exact Or.inl h

theorem sentAs_answered {id : MessageId} {key' : ℕ}
    (h : (answered stream key message).sentAs[id]? = some key') :
    stream.sentAs[id]? = some key' ∨ id = message.id ∧ ∃ one ∈ stream.pending, one.key = key ∧
      one.key = key' := by
  have h := sentAs_inStep h
  split at h
  · exact Or.inl h
  · next standIn hsome =>
    have hkey : standIn.key = key := by simpa using List.find?_some hsome
    rw [insert_at] at h
    split at h
    · next hid =>
        exact Or.inr ⟨hid, standIn, List.mem_of_find?_eq_some hsome, hkey, Option.some.inj h⟩
    · exact Or.inl h

end Streams

section Folds
variable {st st' : State} {post : Post}

theorem mem_standIns {key : ℕ} : key ∈ standIns st ↔ ∃ one ∈ st.stream.pending, one.key = key :=
  List.mem_map

theorem Sound.post_eq (h : Sound st) {post' : Post} (hp : post ∈ st.posts) (hp' : post' ∈ st.posts)
    (hid : post.message.id = post'.message.id) : post = post' :=
  List.inj_on_of_nodup_map h.postIds hp hp' hid

/-- What a message that comes into the stream confirms. -/
theorem confirmed_folds (h : Sound st) (hpost : post ∈ st.posts) (hposts : st'.posts = st.posts)
    (hmessages : st'.stream.messages = mergeMessage st.stream.messages post.message)
    {nonce : Nonce} :
    Confirmed st' nonce ↔ Confirmed st nonce ∨ post.nonce = some nonce := by
  simp only [Confirmed, hposts, hmessages, mem_ids_mergeMessage]
  constructor
  · intro ⟨other, hother, hnonce, hin⟩
    rcases hin with hid | hin
    · rw [h.post_eq hother hpost hid] at hnonce
      exact Or.inr hnonce
    · exact Or.inl ⟨other, hother, hnonce, hin⟩
  · rintro (⟨other, hother, hnonce, hin⟩ | hnonce)
    · exact ⟨other, hother, hnonce, Or.inr hin⟩
    · exact ⟨post, hpost, hnonce, Or.inl rfl⟩

/-- A message comes into the stream and some stand-ins go: everything is still shown just when those
that go are those of the sends that posted it. -/
theorem Shown.folds (h : Shown st) (hs : Sound st) {removed : PendingSend → Prop}
    (hpost : post ∈ st.posts)
    (hposts : st'.posts = st.posts)
    (hmessages : st'.stream.messages = mergeMessage st.stream.messages post.message)
    (hnonces : ∀ key : ℕ, (st'.sends[key]? : Option Send).map Send.nonce =
      (st.sends[key]? : Option Send).map Send.nonce)
    (hfailed : ∀ key : ℕ, ((st'.sends[key]? : Option Send).any fun one => one.stage = .failed) =
      ((st.sends[key]? : Option Send).any fun one => one.stage = .failed))
    (hpending : ∀ one, one ∈ st'.stream.pending ↔ one ∈ st.stream.pending ∧ ¬removed one)
    (htakes : ∀ (id : MessageId) (key : ℕ), st'.stream.sentAs[id]? = some key →
      st.stream.sentAs[id]? = some key ∨
      id = post.message.id ∧ ∃ one ∈ st.stream.pending, removed one ∧ one.key = key) :
    Shown st' ↔ ∀ one ∈ st.stream.pending, removed one ↔ nonceOf st one = post.nonce := by
  have hconf (nonce : Nonce) : Confirmed st' nonce ↔ Confirmed st nonce ∨ post.nonce = some nonce :=
    confirmed_folds hs hpost hposts hmessages
  -- What the sends have is what they had: one each way by the same nonce.
  have hback (key : ℕ) (one' : Send) (hone' : st'.sends[key]? = some one') :
      ∃ one, st.sends[key]? = some one ∧
      one.nonce = one'.nonce ∧ (one'.stage = .failed ↔ one.stage = .failed) := by
    have hn := hnonces key
    have hf := hfailed key
    rw [hone', Option.map_some] at hn
    obtain ⟨one, hone, he⟩ := Option.map_eq_some_iff.mp hn.symm
    rw [hone', hone, Option.any_some, Option.any_some, decide_eq_decide] at hf
    exact ⟨one, hone, he, hf⟩
  have hnonceOf (one : PendingSend) (sent : Send) (hsent : st.sends[one.key]? = some sent) :
      nonceOf st one = some sent.nonce := by
    rw [nonceOf, hsent, Option.map_some]
  constructor
  -- A stand-in that goes though nothing of it was posted leaves its send with neither; one that
  -- stays though its message is here is shown twice.
  · intro h' one hone
    obtain ⟨sent, hsent, hopen, -⟩ := hs.waits one hone
    have hnone : ¬Confirmed st sent.nonce := fun hc =>
      h.goes one.key sent hsent (Or.inr hc) (mem_standIns.mpr ⟨one, hone, rfl⟩)
    obtain ⟨sent', hsent', he⟩ : ∃ sent', st'.sends[one.key]? = some sent' ∧
        sent'.nonce = sent.nonce := by
      have hn := hnonces one.key
      rw [hsent, Option.map_some] at hn
      exact Option.map_eq_some_iff.mp hn
    rw [hnonceOf one sent hsent]
    constructor
    · intro hremoved
      by_contra hne
      have hlive : sent'.stage ≠ .failed := by
        obtain ⟨sent₀, hsent₀, -, hiff⟩ := hback one.key sent' hsent'
        rw [hsent, Option.some.injEq] at hsent₀
        rw [Ne, hiff, ← hsent₀, hopen]
        simp
      have hnone' : ¬Confirmed st' sent'.nonce := by
        rw [he, hconf]
        rintro (hc | hc)
        · exact hnone hc
        · exact hne hc.symm
      obtain ⟨other, hother, hkey⟩ :=
        mem_standIns.mp (h'.standsIn one.key sent' hsent' hlive hnone')
      obtain ⟨hin, hkept⟩ := (hpending other).mp hother
      rw [List.inj_on_of_nodup_map hs.keys hin hone hkey] at hkept
      exact hkept hremoved
    · intro hnonce
      by_contra hkept
      have hconfirmed : Confirmed st' sent'.nonce := by
        rw [he, hconf]
        exact Or.inr hnonce.symm
      exact h'.goes one.key sent' hsent' (Or.inr hconfirmed)
        (mem_standIns.mpr ⟨one, (hpending one).mpr ⟨hone, hkept⟩, rfl⟩)
  -- The other way: the stand-ins that went are the posted sends', the rest stay as they were.
  · intro hcond
    refine ⟨fun key one' hone' hlive hnone => ?_, fun key one' hone' hdone hin => ?_, ?_,
      fun id key hid => ?_⟩
    · obtain ⟨one, hone, he, hiff⟩ := hback key one' hone'
      rw [hconf, ← he, not_or] at hnone
      obtain ⟨p, hp, hkey⟩ :=
        mem_standIns.mp (h.standsIn key one hone (fun hf => hlive (hiff.mpr hf)) hnone.1)
      refine mem_standIns.mpr ⟨p, (hpending p).mpr ⟨hp, fun hremoved => hnone.2 ?_⟩, hkey⟩
      rw [← (hcond p hp).mp hremoved]
      exact hnonceOf p one (hkey ▸ hone)
    · obtain ⟨one, hone, he, hiff⟩ := hback key one' hone'
      obtain ⟨p, hp, hkey⟩ := mem_standIns.mp hin
      obtain ⟨hp, hkept⟩ := (hpending p).mp hp
      have hstanding : key ∈ standIns st := mem_standIns.mpr ⟨p, hp, hkey⟩
      rw [hconf, ← he] at hdone
      rcases hdone with hf | hc | hnonce
      · exact h.goes key one hone (Or.inl (hiff.mp hf)) hstanding
      · exact h.goes key one hone (Or.inr hc) hstanding
      · apply hkept
        rw [hcond p hp, hnonce]
        exact hnonceOf p one (hkey ▸ hone)
    · rw [hmessages]
      exact nodup_mergeMessage h.once
    -- What was taken over stays so, and what was just taken over is the message that came in.
    · have hforth (one : Send) (hone : st.sends[key]? = some one) :
          ∃ one', st'.sends[key]? = some one' ∧ one'.nonce = one.nonce := by
        have hn := hnonces key
        rw [hone, Option.map_some] at hn
        exact Option.map_eq_some_iff.mp hn
      rcases htakes id key hid with hold | ⟨rfl, p, hp, hremoved, hkey⟩
      · obtain ⟨one, other, hone, hother, hnonce, hmid⟩ := h.takesOver id key hold
        obtain ⟨one', hone', he⟩ := hforth one hone
        exact ⟨one', other, hone', hposts ▸ hother, by rw [hnonce, he], hmid⟩
      · obtain ⟨one, hone, -⟩ := hs.waits p hp
        obtain ⟨one', hone', he⟩ := hforth one (hkey ▸ hone)
        refine ⟨one', post, hone', hposts ▸ hpost, ?_, rfl⟩
        rw [← (hcond p hp).mp hremoved, he]
        exact hnonceOf p one hone

end Folds

section Steps
variable {room : Room} {st st' : State}

theorem posted_eq_some {nonce : Nonce} {message : Message} (h : posted st nonce = some message) :
    ∃ post ∈ st.posts, post.nonce = some nonce ∧ post.message = message := by
  obtain ⟨post, hfind, he⟩ := Option.map_eq_some_iff.mp h
  exact ⟨post, List.mem_of_find?_eq_some hfind, by simpa using List.find?_some hfind, he⟩

theorem posted_eq_none {nonce : Nonce} (h : posted st nonce = none) :
    ∀ post ∈ st.posts, post.nonce ≠ some nonce := by
  rw [posted, Option.map_eq_none_iff, List.find?_eq_none] at h
  simpa using h

theorem isNew_iff {id : MessageId} :
    isNew st id = true ↔ ∀ post ∈ st.posts, post.message.id ≠ id := by
  simp [isNew]

/-- Another post the server saves: with a one-time key nothing was saved with, or none. -/
theorem Sound.post (h : Sound st) {post : Post} (hnew : isNew st post.message.id = true)
    (hnonce : ∀ held ∈ st.posts, post.nonce.isSome = true → held.nonce ≠ post.nonce) :
    Sound { st with posts := st.posts ++ [post] } := by
  have hids := isNew_iff.mp hnew
  refine { h with
    saved := fun id hid => ?_, postIds := ?_, nonces := fun p hp p' hp' he hsome => ?_ }
  · obtain ⟨held, hheld, he⟩ := h.saved id hid
    exact ⟨held, List.mem_append_left _ hheld, he⟩
  · rw [List.map_append]
    refine h.postIds.append (List.nodup_singleton _) (List.disjoint_singleton.mpr fun hin => ?_)
    obtain ⟨held, hheld, he⟩ := List.mem_map.mp hin
    exact hids held hheld he
  · rcases List.mem_append.mp hp with hp | hp
    · rcases List.mem_append.mp hp' with hp' | hp'
      · exact h.nonces p hp p' hp' he hsome
      · rw [List.mem_singleton.mp hp'] at he
        exact absurd he (hnonce p hp (he ▸ hsome))
    · have hp := List.mem_singleton.mp hp
      rcases List.mem_append.mp hp' with hp' | hp'
      · rw [hp] at he hsome
        exact absurd he.symm (hnonce p' hp' hsome)
      · rw [hp, List.mem_singleton.mp hp']

/-- What the server saves is in the stream when it is told, and not before. -/
theorem confirmed_post (h : Sound st) {post : Post} (hnew : isNew st post.message.id = true)
    {nonce : Nonce} :
    Confirmed { st with posts := st.posts ++ [post] } nonce ↔ Confirmed st nonce := by
  constructor
  · rintro ⟨held, hheld, hnonce, hin⟩
    rcases List.mem_append.mp hheld with hheld | hheld
    · exact ⟨held, hheld, hnonce, hin⟩
    · rw [List.mem_singleton.mp hheld] at hin
      obtain ⟨saved, hsaved, he⟩ := h.saved _ hin
      exact absurd he (isNew_iff.mp hnew saved hsaved)
  · intro ⟨held, hheld, hnonce, hin⟩
    exact ⟨held, List.mem_append_left _ hheld, hnonce, hin⟩

theorem Shown.post (h : Shown st) (hs : Sound st) {post : Post}
    (hnew : isNew st post.message.id = true) :
    Shown { st with posts := st.posts ++ [post] } where
  standsIn key one hone hlive hnone :=
    h.standsIn key one hone hlive fun hc => hnone ((confirmed_post hs hnew).mpr hc)
  goes key one hone hdone := h.goes key one hone (hdone.imp_right (confirmed_post hs hnew).mp)
  once := h.once
  takesOver id key hid := by
    obtain ⟨one, held, hone, hheld, hnonce, he⟩ := h.takesOver id key hid
    exact ⟨one, held, hone, List.mem_append_left _ hheld, hnonce, he⟩

section Send
variable {body : Text} {replyTo : Option MessageId} {attachments : List AttachmentId}
  {nonce : Nonce}

theorem sends_send (key : ℕ) : (send room st body replyTo attachments nonce).sends[key]? =
    if key = st.pendingSeq + 1 then
      some ⟨⟨room.id, room.me, body, replyTo, attachments⟩, nonce, .open⟩
    else st.sends[key]? := insert_at _ _ _ _

theorem Sound.key_ne (h : Sound st) {key : ℕ} {one : Send} (hone : st.sends[key]? = some one) :
    key ≠ st.pendingSeq + 1 := by
  have hle := h.started key one hone
  omega

theorem Sound.send (h : Sound st) : Sound (send room st body replyTo attachments nonce) := by
  have hold (one : PendingSend) (hone : one ∈ st.stream.pending) : one.key ≠ st.pendingSeq + 1 := by
    obtain ⟨sent, hsent, -⟩ := h.waits one hone
    exact h.key_ne hsent
  refine ⟨fun one hone => ?_, ?_, fun key one hone => ?_, h.saved, h.postIds, h.nonces⟩
  · rcases List.mem_append.mp hone with hone | hone
    · obtain ⟨sent, hsent, hrest⟩ := h.waits one hone
      refine ⟨sent, ?_, hrest⟩
      rw [sends_send, if_neg (h.key_ne hsent), hsent]
    · rw [List.mem_singleton.mp hone]
      exact ⟨⟨⟨room.id, room.me, body, replyTo, attachments⟩, nonce, .open⟩,
        by rw [sends_send, if_pos rfl], rfl, rfl⟩
  · change ((st.stream.pending ++ [_]).map PendingSend.key).Nodup
    rw [List.map_append]
    refine h.keys.append (List.nodup_singleton _) (List.disjoint_singleton.mpr fun hin => ?_)
    obtain ⟨one, hone, he⟩ := List.mem_map.mp hin
    exact hold one hone he
  · rw [sends_send] at hone
    split at hone
    · next hkey => exact Nat.le_of_eq hkey
    · exact Nat.le_succ_of_le (h.started key one hone)

/-- A send's stand-in shows from the start: rightly, as long as its message is not there already. -/
theorem Shown.send (h : Shown st) (hs : Sound st) :
    Shown (send room st body replyTo attachments nonce) ↔
      ToldApart room st (.sends body replyTo attachments nonce) := by
  have hconf (other : Nonce) : Confirmed (Sends.send room st body replyTo attachments nonce) other ↔
      Confirmed st other := Iff.rfl
  have hmem (key : ℕ) : key ∈ standIns (Sends.send room st body replyTo attachments nonce) ↔
      key ∈ standIns st ∨ key = st.pendingSeq + 1 := by
    change key ∈ (st.stream.pending ++ [_]).map PendingSend.key ↔ _
    rw [List.map_append, List.mem_append]
    exact or_congr Iff.rfl List.mem_singleton
  have hnew : (Sends.send room st body replyTo attachments nonce).sends[st.pendingSeq + 1]? =
      some ⟨⟨room.id, room.me, body, replyTo, attachments⟩, nonce, .open⟩ := by
    rw [sends_send, if_pos rfl]
  constructor
  · intro h' post hpost hnonce hin
    exact h'.goes _ _ hnew (Or.inr ⟨post, hpost, hnonce, hin⟩) ((hmem _).mpr (Or.inr rfl))
  · intro hcond
    refine ⟨fun key one hone hlive hnone => ?_, fun key one hone hdone hin => ?_, h.once,
      fun id key hid => ?_⟩
    · rw [sends_send] at hone
      rw [hmem]
      split at hone
      · next hkey => exact Or.inr hkey
      · exact Or.inl (h.standsIn key one hone hlive hnone)
    · rw [sends_send] at hone
      split at hone
      · cases hone
        rcases hdone with hf | ⟨post, hpost, hnonce, hin⟩
        · exact absurd hf (by simp)
        · exact hcond post hpost hnonce hin
      · next hkey =>
        rcases (hmem key).mp hin with hin | hin
        · exact h.goes key one hone hdone hin
        · exact hkey hin
    · obtain ⟨one, post, hone, hrest⟩ := h.takesOver id key (sentAs_inStep hid)
      refine ⟨one, post, ?_, hrest⟩
      rw [sends_send, if_neg (hs.key_ne hone), hone]

end Send

/-- What is pending is less, and every send there is still waits or is over. -/
theorem Sound.fold (h : Sound st) {key : ℕ} {one : Send} {stream : RoomStream} {stage : Stage}
    (hone : st.sends[key]? = some one) (hpending : stream.pending.Sublist st.stream.pending)
    (hgone : ∀ p ∈ stream.pending, p.key ≠ key)
    (hsaved : ∀ id ∈ ids stream.messages, ∃ post ∈ st.posts, post.message.id = id) :
    Sound { st with
      stream := stream, sends := st.sends.insert key { one with stage := stage } } := by
  refine ⟨fun p hp => ?_, (hpending.map _).nodup h.keys, fun other sent hsent => ?_, hsaved,
    h.postIds, h.nonces⟩
  · obtain ⟨sent, hsent, hrest⟩ := h.waits p (hpending.subset hp)
    refine ⟨sent, ?_, hrest⟩
    rw [insert_at, if_neg (hgone p hp), hsent]
  · rw [insert_at] at hsent
    split at hsent
    · next hkey => exact hkey ▸ h.started key one hone
    · exact h.started other sent hsent

theorem pending_announced_sublist {stream : RoomStream} {message : Message} :
    (announced stream message).pending.Sublist stream.pending := by
  simp only [announced]
  split
  · exact List.Sublist.refl _
  · exact List.erase_sublist

theorem pending_answered_sublist {stream : RoomStream} {key : ℕ} {message : Message} :
    (answered stream key message).pending.Sublist stream.pending := by
  simp only [answered]
  split
  · exact List.Sublist.refl _
  · exact List.filter_sublist

theorem saved_mergeMessage (h : Sound st) {post : Post} (hpost : post ∈ st.posts) :
    ∀ id ∈ ids (mergeMessage st.stream.messages post.message), ∃ held ∈ st.posts,
      held.message.id = id := by
  intro id hid
  rcases mem_ids_mergeMessage.mp hid with rfl | hid
  · exact ⟨post, hpost, rfl⟩
  · exact h.saved id hid

section Announced
variable {post : Post}

theorem Sound.announced (h : Sound st) (hpost : post ∈ st.posts) :
    Sound { st with stream := Sends.announced st.stream post.message } where
  waits one hone := h.waits one (pending_announced_sublist.subset hone)
  keys := (pending_announced_sublist.map _).nodup h.keys
  started := h.started
  saved := by
    rw [messages_announced]
    exact saved_mergeMessage h hpost
  postIds := h.postIds
  nonces := h.nonces

theorem Shown.announced (h : Shown st) (hs : Sound st) (hpost : post ∈ st.posts) :
    Shown { st with stream := Sends.announced st.stream post.message } ↔ ∀ one ∈ st.stream.pending,
      st.stream.pending.find? (fun one => matchesPending one.message post.message.said) = some one ↔
        nonceOf st one = post.nonce :=
  h.folds hs hpost rfl messages_announced (fun _ => rfl) (fun _ => rfl)
    (fun _ => mem_pending_announced hs.keys) fun _ _ hid => sentAs_announced hid

end Announced

section Over
variable {key : ℕ} {one : Send}

theorem sends_over (stage : Stage) (other : ℕ) :
    (st.sends.insert key { one with stage := stage })[other]? =
    if other = key then some { one with stage := stage } else st.sends[other]? := insert_at _ _ _ _

theorem Shown.answered (h : Shown st) (hs : Sound st) {post : Post}
    (hone : st.sends[key]? = some one)
    (hopen : one.stage = .open) (hpost : post ∈ st.posts) (hnonce : post.nonce = some one.nonce) :
    Shown { st with
      stream := Sends.answered st.stream key post.message
      sends := st.sends.insert key { one with stage := .answered } } ↔
        ToldApart room st (.answers key) := by
  have hfolds : Shown { st with
      stream := Sends.answered st.stream key post.message
      sends := st.sends.insert key { one with stage := .answered } } ↔
      ∀ p ∈ st.stream.pending, p.key = key ↔ nonceOf st p = post.nonce :=
        h.folds hs hpost rfl messages_answered ?_ ?_ (fun _ => mem_pending_answered hs.keys)
          fun _ _ hid => sentAs_answered hid
  · rw [hfolds]
    constructor
    · intro hall p hp hne hsame
      rw [hone, Option.map_some, ← hnonce] at hsame
      exact hne ((hall p hp).mpr hsame)
    · intro hcond p hp
      constructor
      · intro hkey
        rw [nonceOf, hkey, hone, hnonce, Option.map_some]
      · intro hsame
        by_contra hne
        apply hcond p hp hne
        rw [hsame, hone, hnonce, Option.map_some]
  · intro other
    rw [sends_over]
    split
    · next hkey => rw [hkey, hone, Option.map_some, Option.map_some]
    · rfl
  · intro other
    rw [sends_over]
    split
    · next hkey =>
      rw [hkey, hone, Option.any_some, Option.any_some, hopen]
      simp
    · rfl

theorem mem_pending_clearStandIn {stream : RoomStream} {p : PendingSend} :
    p ∈ (clearStandIn stream key).pending ↔ p ∈ stream.pending ∧ p.key ≠ key := by
  change p ∈ stream.pending.filter (fun one => one.key ≠ key) ↔ _
  rw [List.mem_filter, decide_eq_true_iff]

/-- A send that failed takes its stand-in, and nothing else. -/
theorem Shown.fails (h : Shown st) (hone : st.sends[key]? = some one) :
    Shown { st with
      stream := clearStandIn st.stream key
      sends := st.sends.insert key { one with stage := .failed } } := by
  have hmem (other : ℕ) : other ∈ (clearStandIn st.stream key).pending.map PendingSend.key ↔
      other ∈ standIns st ∧ other ≠ key := by
    rw [List.mem_map, mem_standIns]
    constructor
    · intro ⟨p, hp, he⟩
      obtain ⟨hp, hne⟩ := mem_pending_clearStandIn.mp hp
      exact ⟨⟨p, hp, he⟩, he ▸ hne⟩
    · intro ⟨⟨p, hp, he⟩, hne⟩
      exact ⟨p, mem_pending_clearStandIn.mpr ⟨hp, he ▸ hne⟩, he⟩
  refine ⟨fun other sent hsent hlive hnone => ?_, fun other sent hsent hdone hin => ?_, h.once,
    fun id other hid => ?_⟩
  · rw [sends_over] at hsent
    split at hsent
    · cases hsent
      exact absurd rfl hlive
    · next hne => exact (hmem other).mpr ⟨h.standsIn other sent hsent hlive hnone, hne⟩
  · obtain ⟨hin, hne⟩ := (hmem other).mp hin
    rw [sends_over, if_neg hne] at hsent
    exact h.goes other sent hsent hdone hin
  · obtain ⟨sent, post, hsent, hpost, hnonce, he⟩ := h.takesOver id other (sentAs_inStep hid)
    by_cases hkey : other = key
    · rw [hkey, hone, Option.some.injEq] at hsent
      refine ⟨{ one with stage := .failed }, post, ?_, hpost, hsent ▸ hnonce, he⟩
      rw [sends_over, if_pos hkey]
    · refine ⟨sent, post, ?_, hpost, hnonce, he⟩
      rw [sends_over, if_neg hkey, hsent]

end Over

theorem step_sound {label : Label} (h : Sound st) (hs : step room st label = some st') :
    Sound st' := by
  cases label with
  | sends body replyTo attachments nonce =>
    cases hs
    exact h.send
  | posts key id =>
    simp only [step] at hs
    split at hs
    · next one hone =>
      obtain ⟨⟨-, hnone, hnew, -⟩, he⟩ := Option.ite_none_right_eq_some.mp hs
      cases he
      exact h.post hnew fun held hheld _ => posted_eq_none hnone held hheld
    · exact absurd hs (by simp)
  | elsewhere message =>
    obtain ⟨hnew, he⟩ := Option.ite_none_right_eq_some.mp hs
    cases he
    exact h.post hnew fun held hheld hsome => absurd hsome (by simp)
  | announces id =>
    simp only [step] at hs
    split at hs
    · next post hfind =>
      cases hs
      split
      · exact h.announced (List.mem_of_find?_eq_some hfind)
      · exact h
    · exact absurd hs (by simp)
  | answers key =>
    simp only [step] at hs
    split at hs
    · next one hone =>
      split at hs
      · next message hopen hposted =>
        cases hs
        obtain ⟨post, hpost, -, rfl⟩ := posted_eq_some hposted
        refine h.fold hone pending_answered_sublist
          (fun p hp => ((mem_pending_answered h.keys).mp hp).2) ?_
        rw [messages_answered]
        exact saved_mergeMessage h hpost
      · exact absurd hs (by simp)
    · exact absurd hs (by simp)
  | fails key =>
    simp only [step] at hs
    split at hs
    · next one hone =>
      obtain ⟨-, he⟩ := Option.ite_none_right_eq_some.mp hs
      cases he
      exact h.fold hone List.filter_sublist (fun p hp => (mem_pending_clearStandIn.mp hp).2) h.saved
    · exact absurd hs (by simp)

/-- Just when a step leaves everything that was sent on screen. -/
theorem step_shown {label : Label} (h : Shown st) (hsound : Sound st)
    (hs : step room st label = some st') :
    Shown st' ↔ ToldApart room st label := by
  cases label with
  | sends body replyTo attachments nonce =>
    cases hs
    exact h.send hsound
  | posts key id =>
    simp only [step] at hs
    split at hs
    · next one hone =>
      obtain ⟨⟨-, -, hnew, -⟩, he⟩ := Option.ite_none_right_eq_some.mp hs
      cases he
      exact iff_of_true (h.post hsound hnew) trivial
    · exact absurd hs (by simp)
  | elsewhere message =>
    obtain ⟨hnew, he⟩ := Option.ite_none_right_eq_some.mp hs
    cases he
    exact iff_of_true (h.post hsound hnew) trivial
  | announces id =>
    simp only [step] at hs
    split at hs
    · next post hfind =>
      have hpost := List.mem_of_find?_eq_some hfind
      have hid : post.message.id = id := by simpa using List.find?_some hfind
      cases hs
      -- There is one post of an id, so the condition is about this one.
      have hcond : ToldApart room st (.announces id) ↔ (post.message.said.roomId = room.id →
          ∀ one ∈ st.stream.pending,
            st.stream.pending.find? (fun one => matchesPending one.message post.message.said) =
              some one ↔ nonceOf st one = post.nonce) := by
        constructor
        · intro hall
          exact hall post hpost hid
        · intro hone held hheld hhid
          rw [hsound.post_eq hheld hpost (hhid.trans hid.symm)]
          exact hone
      rw [hcond]
      split
      · next hroom => rw [h.announced hsound hpost, forall_prop_of_true hroom]
      · next hroom => exact iff_of_true h fun hin => absurd hin hroom
    · exact absurd hs (by simp)
  | answers key =>
    simp only [step] at hs
    split at hs
    · next one hone =>
      split at hs
      · next message hopen hposted =>
        cases hs
        obtain ⟨post, hpost, hnonce, rfl⟩ := posted_eq_some hposted
        exact h.answered hsound hone hopen hpost hnonce
      · exact absurd hs (by simp)
    · exact absurd hs (by simp)
  | fails key =>
    simp only [step] at hs
    split at hs
    · next one hone =>
      obtain ⟨-, he⟩ := Option.ite_none_right_eq_some.mp hs
      cases he
      exact iff_of_true (h.fails hone) trivial
    · exact absurd hs (by simp)

end Steps

section Runs
variable {room : Room} {history : List Message} {st : State}

theorem opened_sound (h : (ids history).Nodup) : Sound (opened history) where
  waits one hone := absurd hone (by simp [opened])
  keys := List.nodup_nil
  started key one hone := absurd hone (by simp [opened])
  saved id hid := by
    obtain ⟨message, hm, he⟩ := List.mem_map.mp hid
    exact ⟨⟨none, message⟩, List.mem_map.mpr ⟨message, hm, rfl⟩, he⟩
  postIds := by
    rw [opened, List.map_map]
    exact h
  nonces post hpost _ _ _ hsome := by
    obtain ⟨message, -, rfl⟩ := List.mem_map.mp hpost
    exact absurd hsome (by simp)

theorem opened_shown (h : (ids history).Nodup) : Shown (opened history) where
  standsIn key one hone := absurd hone (by simp [opened])
  goes key one hone := absurd hone (by simp [opened])
  once := h
  takesOver id key hid := absurd hid (by simp [opened])

/-- In every run of sends, answers, failures and announcements, what you sent is on screen
throughout just when every step of it can tell the sends apart. -/
theorem shown_throughout {ls : List Label} (h : (ids history).Nodup)
    (hr : (machine room history).run ls = some st) :
    (∀ ms ns s, ls = ms ++ ns → (machine room history).run ms = some s → Shown s) ↔
      (machine room history).Meets (ToldApart room) ls := by
  have hiff := @Machine.states_iff_meets _ _ (machine room history) (ToldApart room)
    (fun s => Shown s ∧ Sound s) ⟨opened_shown h, opened_sound h⟩
    (fun s l t hs hl => ⟨fun ht => (step_shown hs.1 hs.2 hl).mp ht.1,
      fun hok => ⟨(step_shown hs.1 hs.2 hl).mpr hok, step_sound hs.2 hl⟩⟩) _ _ hr
  rw [← hiff]
  constructor
  · intro hall ms ns s hls hs
    refine ⟨hall ms ns s hls hs, ?_⟩
    exact (machine room history).invariant (opened_sound h) (fun _ _ _ hs hl => step_sound hs hl)
      ⟨ms, hs⟩
  · intro hall ms ns s hls hs
    exact (hall ms ns s hls hs).1

end Runs

section Twice

/-- The same thing said twice, and the first answered before it is announced. -/
def saidTwice : List Label :=
  [.sends ['h', 'i'] none [] 10, .sends ['h', 'i'] none [] 20, .posts 1 100, .answers 1]

theorem shown_throughout_twice :
    ∃ st, (machine ⟨1, 7⟩ [⟨50, ⟨1, 8, ['y', 'o'], none, []⟩⟩]).run saidTwice = some st ∧
    ((∀ ms ns s, saidTwice = ms ++ ns →
      (machine ⟨1, 7⟩ [⟨50, ⟨1, 8, ['y', 'o'], none, []⟩⟩]).run ms = some s → Shown s) ↔
        (machine ⟨1, 7⟩ [⟨50, ⟨1, 8, ['y', 'o'], none, []⟩⟩]).Meets
          (ToldApart ⟨1, 7⟩) saidTwice) := by
  obtain ⟨st, hst⟩ := Option.isSome_iff_exists.mp
    (show ((machine ⟨1, 7⟩ [⟨50, ⟨1, 8, ['y', 'o'], none, []⟩⟩]).run saidTwice).isSome =
      true by decide +kernel)
  exact ⟨st, hst, shown_throughout (by decide) hst⟩

/-- The announcement of the first then takes the second's stand-in, which is still being sent. -/
theorem second_vanishes :
    ¬∀ room history ls st, (ids history).Nodup → (machine room history).run ls = some st →
    Shown st := by
  intro h
  have hrun : ((machine ⟨1, 7⟩ []).run (saidTwice ++ [.announces 100])).map
      (fun st => (st.sends[2]?, standIns st, ids st.stream.messages, st.posts)) =
        some (some ⟨⟨1, 7, ['h', 'i'], none, []⟩, 20, .open⟩, [], [100],
          [⟨some 10, ⟨100, ⟨1, 7, ['h', 'i'], none, []⟩⟩⟩]) := by decide +kernel
  obtain ⟨st, hst, hends⟩ := Option.map_eq_some_iff.mp hrun
  simp only [Prod.mk.injEq] at hends
  obtain ⟨hsend, hstand, -, hposts⟩ := hends
  have hshown := h ⟨1, 7⟩ [] _ st List.nodup_nil hst
  have hnone : ¬Confirmed st 20 := by
    rintro ⟨post, hpost, hnonce, -⟩
    rw [hposts, List.mem_singleton] at hpost
    rw [hpost] at hnonce
    exact absurd hnonce (by decide)
  have hin := hshown.standsIn 2 _ hsend (by decide) hnone
  rw [hstand] at hin
  exact absurd hin List.not_mem_nil

end Twice
end Linger.Sends
