import Linger.ScreensBoard

/-! What settling a share comes to: each of its watchers is given the format
`choose` picks for it, the share is told what to make, and nothing else moves. -/
namespace Linger.Screens
open FiniteMap

/-- A watcher's format by what it can play. -/
def pick (encode : List ScreenCodec) (watchers : List (List ScreenCodec))
    (decode : List ScreenCodec) : Option ScreenCodec :=
  match common encode watchers with
  | some codec => some codec
  | none => encode.find? fun codec => decode.contains codec

theorem choose_snd (encode : List ScreenCodec) (watchers : List (List ScreenCodec)) :
    (choose encode watchers).2 = watchers.map (pick encode watchers) := by
  unfold choose
  cases watchers with
  | nil => rfl
  | cons decode rest =>
    rw [if_neg (by simp)]
    cases hc : common encode (decode :: rest) with
    | none =>
      refine List.map_congr_left fun d _ => ?_
      rw [pick, hc]
    | some codec =>
      refine (List.map_eq_replicate_iff.mpr fun d _ => ?_).symm
      rw [pick, hc]

/-- Every format a watcher is given is one the sharer is asked to make. -/
theorem pick_wanted {encode : List ScreenCodec} {watchers : List (List ScreenCodec)}
    {decode : List ScreenCodec} {codec : ScreenCodec} (hd : decode ∈ watchers)
    (h : pick encode watchers decode = some codec) : codec ∈ (choose encode watchers).1 := by
  have hne : ¬watchers.isEmpty = true := by
    intro he
    rw [List.isEmpty_iff.mp he] at hd
    cases hd
  unfold pick at h
  unfold choose
  rw [if_neg hne]
  cases hc : common encode watchers with
  | some other =>
    rw [hc] at h
    cases h
    exact List.mem_singleton_self codec
  | none =>
    rw [hc] at h
    refine List.mem_filter.mpr ⟨List.mem_of_find?_eq_some h, ?_⟩
    rw [List.contains_iff_mem]
    exact List.mem_map.mpr ⟨decode, hd, h⟩

/-- The last `want` a sharer was told. -/
def ScreenShareSays.wants : ScreenShareSays → Option (List ScreenCodec × Option Bool)
  | .want codecs sound => some (codecs, sound)
  | .keyframe _ => none

def lastWant (said : List ScreenShareSays) : Option (List ScreenCodec × Option Bool) :=
  (said.filterMap ScreenShareSays.wants).getLast?

theorem lastWant_want (said : List ScreenShareSays) (codecs : List ScreenCodec)
    (sound : Option Bool) : lastWant (said ++ [.want codecs sound]) = some (codecs, sound) := by
  rw [lastWant, List.filterMap_append, List.getLast?_append]
  rfl

theorem lastWant_keyframe (said : List ScreenShareSays) (codec : ScreenCodec) :
    lastWant (said ++ [.keyframe codec]) = lastWant said := by
  rw [lastWant, List.filterMap_append, List.getLast?_append]
  rfl

def flag (b : Bool) : Option Bool := if b then some true else none

variable {β : Type}

/-- What a share was last told is what its record says it was. -/
def Share.Told (share : Share β) : Prop :=
  lastWant share.said = some (share.wanted, flag share.sounding)

theorem Share.told_want (share : Share β) : share.want.Told := lastWant_want _ _ _

/-- The same share, asked for key frames and charged for what it sent. -/
structure Share.Same (share share' : Share β) : Prop where
  room : share'.room = share.room
  encode : share'.encode = share.encode
  sound : share'.sound = share.sound
  sounding : share'.sounding = share.sounding
  socket : share'.socket = share.socket
  wanted : share'.wanted = share.wanted
  told : lastWant share'.said = lastWant share.said

theorem Share.Same.refl (share : Share β) : share.Same share := ⟨rfl, rfl, rfl, rfl, rfl, rfl, rfl⟩

theorem Share.Same.trans {s₁ s₂ s₃ : Share β} (h : s₁.Same s₂) (h' : s₂.Same s₃) : s₁.Same s₃ :=
  ⟨h'.room.trans h.room, h'.encode.trans h.encode, h'.sound.trans h.sound,
    h'.sounding.trans h.sounding, h'.socket.trans h.socket, h'.wanted.trans h.wanted,
    h'.told.trans h.told⟩

namespace Board
variable {b : Board β} {t : SessionId} {share : Share β}

theorem putShare_self (h : b.shares[t]? = some share) : b.putShare t share = b := by
  rw [putShare, insert_of_at h]

theorem putShare_putShare (b : Board β) (t : SessionId) (s₁ s₂ : Share β) :
    (b.putShare t s₁).putShare t s₂ = b.putShare t s₂ := by
  have he : (b.shares.insert t s₁).insert t s₂ = b.shares.insert t s₂ := by
    ext1 a
    simp only [insert_at]
    split <;> rfl
  rw [putShare, putShare, putShare, he]

theorem putShare_at (b : Board β) (t s : SessionId) (share : Share β) :
    (b.putShare t share).shares[s]? = if s = t then some share else b.shares[s]? :=
  insert_at _ _ _ _

theorem askKeyframe_eq (h : b.shares[t]? = some share) (codec : ScreenCodec) (now : ℕ) :
    ∃ share', share.Same share' ∧ b.askKeyframe t codec now = b.putShare t share' := by
  unfold askKeyframe
  rw [h]
  dsimp only
  split
  · exact ⟨share, Share.Same.refl share, (putShare_self h).symm⟩
  · refine ⟨{ share with
      asked := Function.update share.asked codec (some now)
      said := share.said ++ [.keyframe codec] }, ⟨rfl, rfl, rfl, rfl, rfl, rfl, ?_⟩, rfl⟩
    exact lastWant_keyframe share.said codec

theorem askKeyframes_eq (h : b.shares[t]? = some share) (codecs : List ScreenCodec) (now : ℕ) :
    ∃ share', share.Same share' ∧
      codecs.foldl (fun b codec => b.askKeyframe t codec now) b = b.putShare t share' := by
  induction codecs generalizing b share with
  | nil => exact ⟨share, Share.Same.refl share, (putShare_self h).symm⟩
  | cons codec codecs ih =>
    obtain ⟨s₁, hs₁, he₁⟩ := askKeyframe_eq h codec now
    have h₁ : (b.askKeyframe t codec now).shares[t]? = some s₁ := by
      rw [he₁, putShare_at, if_pos rfl]
    obtain ⟨s₂, hs₂, he₂⟩ := ih h₁
    refine ⟨s₂, hs₁.trans hs₂, ?_⟩
    rw [List.foldl_cons, he₂, he₁, putShare_putShare]

/-- Those who watch `t`. -/
def watchersOf (b : Board β) (t : SessionId) : List Watch :=
  (vals b.watches).filter fun w => w.target = some t

def decodesFor (b : Board β) (t : SessionId) : List (List ScreenCodec) :=
  (b.watchersOf t).map Watch.decode

theorem decodesFor_eq (b : Board β) (t : SessionId) :
    (b.watching t).map b.decodeOf = b.decodesFor t := by
  simp only [watching, decodesFor, watchersOf, vals, List.filter_map, List.map_map]
  refine List.map_congr_left fun e he => ?_
  have hmem := (List.mem_filter.mp he).1
  rw [Std.ExtTreeMap.mem_toList_iff_getElem?_eq_some] at hmem
  simp only [Function.comp_apply, decodeOf, hmem, Option.map_some, Option.getD_some]

theorem mem_watchersOf (b : Board β) (t : SessionId) (w : Watch) :
    w ∈ b.watchersOf t ↔ (∃ s : SessionId, b.watches[s]? = some w) ∧ w.target = some t := by
  rw [watchersOf, List.mem_filter, mem_vals]
  simp

/-- What settling `t` makes of a watch on the board. -/
def settled (b : Board β) (t : SessionId) (encode : List ScreenCodec) (w : Watch) : Watch :=
  if w.target = some t then w.given t (pick encode (b.decodesFor t) w.decode) (b.sounds t) else w

theorem settleOne_fst (sound : Option Bool) (so : Board β × List ScreenCodec)
    (next : SessionId × Option ScreenCodec) :
    (settleOne t sound so next).1 = { so.1 with
      watches := so.1.watches.modify next.1 fun w => w.given t next.2 sound } := by
  unfold settleOne
  cases hw : so.1.watches[next.1]? with
  | none => rw [modify_of_none hw]
  | some w =>
    rw [modify_of_some hw]
    rfl

theorem settleOnes_fst (sound : Option Bool) (p : SessionId → Option ScreenCodec)
    (l : List SessionId) (so : Board β × List ScreenCodec) :
    ((l.map fun s => (s, p s)).foldl (settleOne t sound) so).1 = { so.1 with
      watches := l.foldl (fun m s => m.modify s fun w => w.given t (p s) sound) so.1.watches } := by
  induction l generalizing so with
  | nil => rfl
  | cons s l ih =>
    rw [List.map_cons, List.foldl_cons, ih, settleOne_fst]
    rfl

theorem settle_of_none (h : b.shares[t]? = none) (now : ℕ) : b.settle t now = b := by
  unfold settle
  rw [h]

/-- The one account of `settle`. -/
structure Settles (b : Board β) (t : SessionId) (share : Share β) (b' : Board β) : Prop where
  watches : b'.watches = b.watches.map fun _ w => b.settled t share.encode w
  sockets : b'.sockets = b.sockets
  handed : b'.handed = b.handed
  shares : ∃ share', b'.shares = b.shares.insert t share' ∧ share'.room = share.room ∧
    share'.encode = share.encode ∧ share'.sound = share.sound ∧ share'.socket = share.socket ∧
    share'.wanted = (choose share.encode (b.decodesFor t)).1 ∧
    share'.sounding = b.listening t ∧ (share.Told → share'.Told)

theorem settled_sound (b : Board β) (t : SessionId) (encode : List ScreenCodec) (w : Watch) :
    (b.settled t encode w).sound = w.sound ∧ (b.settled t encode w).target = w.target := by
  unfold settled Watch.given
  split
  · split <;> exact ⟨rfl, rfl⟩
  · exact ⟨rfl, rfl⟩

theorem nodup_watching (b : Board β) (t : SessionId) : (b.watching t).Nodup :=
  nodup_keys b.watches _

/-- The settled watches, whichever way round the watchers are gone through. -/
theorem settleOnes_watches (b : Board β) (t : SessionId) (encode : List ScreenCodec) :
    (b.watching t).foldl (fun m s => m.modify s fun w =>
        w.given t (pick encode (b.decodesFor t) (b.decodeOf s)) (b.sounds t)) b.watches =
      b.watches.map fun _ w => b.settled t encode w := by
  ext1 s
  have hfold := foldl_modify_at (fun s w =>
    Watch.given w t (pick encode (b.decodesFor t) (b.decodeOf s)) (b.sounds t))
    (b.nodup_watching t) b.watches s
  refine hfold.trans ?_
  rw [Std.ExtTreeMap.getElem?_map]
  cases hw : b.watches[s]? with
  | none => simp
  | some w =>
    have hd : b.decodeOf s = w.decode := by rw [decodeOf, hw]; rfl
    have hm : s ∈ b.watching t ↔ w.target = some t := by
      rw [watching, mem_keys, hw]
      simp
    simp only [hm, hd, settled, Option.map_some]
    split <;> rfl

theorem tellWanted_eq (h : b.shares[t]? = some share) (wanted : List ScreenCodec)
    (sounding : Bool) :
    ∃ share', b.tellWanted t wanted sounding = b.putShare t share' ∧ share'.room = share.room ∧
      share'.encode = share.encode ∧ share'.sound = share.sound ∧ share'.socket = share.socket ∧
      share'.wanted = wanted ∧ share'.sounding = sounding ∧ (share.Told → share'.Told) := by
  unfold tellWanted
  rw [h]
  dsimp only
  split
  · exact ⟨_, rfl, rfl, rfl, rfl, rfl, rfl, rfl, fun _ => Share.told_want _⟩
  · next hsame =>
    obtain ⟨hw, hs⟩ := not_or.mp hsame
    exact ⟨share, (putShare_self h).symm, rfl, rfl, rfl, rfl, not_not.mp hw, not_not.mp hs, id⟩

theorem settle_of_some (h : b.shares[t]? = some share) (now : ℕ) :
    Settles b t share (b.settle t now) := by
  let so := ((b.watching t).zip (choose share.encode (b.decodesFor t)).2).foldl
    (settleOne t (b.sounds t)) (b, [])
  have hso : so.1 = { b with watches := b.watches.map fun _ w => b.settled t share.encode w } := by
    have hzip : (b.watching t).zip (choose share.encode (b.decodesFor t)).2 =
        (b.watching t).map fun s => (s, pick share.encode (b.decodesFor t) (b.decodeOf s)) := by
      rw [choose_snd, List.map_prod_left_eq_zip, ← decodesFor_eq, List.map_map]
      rfl
    show (((b.watching t).zip (choose share.encode (b.decodesFor t)).2).foldl
      (settleOne t (b.sounds t)) (b, [])).1 = _
    rw [hzip, settleOnes_fst, settleOnes_watches]
  have hlisten : so.1.listening t = b.listening t := by
    rw [hso, listening, listening, vals_map, List.any_map]
    refine congrArg₂ _ rfl (List.any_congr rfl fun w => ?_)
    obtain ⟨hsound, htarget⟩ := settled_sound b t share.encode w
    simp only [Function.comp_apply, hsound, htarget]
  have hshare : so.1.shares[t]? = some share := by
    rw [hso]
    exact h
  obtain ⟨s₁, he₁, hroom, hencode, hsound, hsocket, hwanted, hsounding, htold⟩ :=
    tellWanted_eq hshare (choose share.encode (b.decodesFor t)).1 (so.1.listening t)
  have h₁ : (so.1.tellWanted t (choose share.encode (b.decodesFor t)).1
      (so.1.listening t)).shares[t]? = some s₁ := by
    rw [he₁, putShare_at, if_pos rfl]
  obtain ⟨s₂, hs₂, he₂⟩ := askKeyframes_eq h₁ so.2 now
  have hsettle : b.settle t now = { b with
      shares := b.shares.insert t s₂
      watches := b.watches.map fun _ w => b.settled t share.encode w } := by
    unfold settle
    rw [h]
    dsimp only
    rw [decodesFor_eq]
    show so.2.foldl _ (so.1.tellWanted t _ (so.1.listening t)) = _
    rw [he₂, he₁, putShare_putShare, hso]
    rfl
  rw [hsettle]
  refine ⟨rfl, rfl, rfl, s₂, rfl, hs₂.room.trans hroom, hs₂.encode.trans hencode,
    hs₂.sound.trans hsound, hs₂.socket.trans hsocket, hs₂.wanted.trans hwanted, ?_, fun ht => ?_⟩
  · rw [hs₂.sounding, hsounding, hlisten]
  · have := htold ht
    unfold Share.Told at this ⊢
    rw [hs₂.told, hs₂.wanted, hs₂.sounding]
    exact this

end Board
end Linger.Screens
