import Mathlib.Data.List.Find
import Linger.ScreensInvariant

/-! What a watcher was last told it is shown. Every operation keeps that true but
one: sharing again takes its watchers' formats away before they are settled, and
one that is given none afterwards is told nothing. -/
namespace Linger.Screens
open FiniteMap StepMachine

variable {β : Type} {b b' : Board β}

/-- The last a watcher was told is what it watches, in which format, and whether
that carries sound. -/
def Board.Shown (b : Board β) (w : Watch) : Prop :=
  lastShown w.line.said = some (w.target, w.codec, w.target.bind b.sounds)

theorem Board.sounds_eq (b : Board β) (t : SessionId) :
    b.sounds t = (b.shares[t]?).bind fun share => flag share.sound := by
  unfold sounds
  cases b.shares[t]? with
  | none => rfl
  | some share => rfl

theorem Board.Shown.congr {w w' : Watch} (h : b.Shown w) (ht : w'.target = w.target)
    (hc : w'.codec = w.codec) (hsaid : lastShown w'.line.said = lastShown w.line.said)
    (hs : ∀ t, w.target = some t → b'.sounds t = b.sounds t) : b'.Shown w' := by
  unfold Board.Shown
  rw [hsaid, h, ht, hc]
  cases hw : w.target with
  | none => rfl
  | some t => rw [Option.bind_some, Option.bind_some, hs t hw]

theorem Board.settle_sounds (b : Board β) (t : SessionId) (now : ℕ) (u : SessionId) :
    (b.settle t now).sounds u = b.sounds u := by
  cases hb : b.shares[t]? with
  | none => rw [settle_of_none hb]
  | some share =>
    obtain ⟨-, -, -, share', hshares, -, -, hsound, -⟩ := settle_of_some hb now
    rw [sounds_eq, sounds_eq, hshares, insert_at]
    split
    · next he => rw [he, hb, Option.bind_some, Option.bind_some, hsound]
    · rfl

/-- Settling tells whom it gives another format, and leaves the rest as they were. -/
theorem Board.settled_shown (b : Board β) (t : SessionId) (encode : List ScreenCodec) (now : ℕ)
    {w : Watch}
    (h : b.Shown w ∨ w.target = some t ∧ w.codec ≠ pick encode (b.decodesFor t) w.decode) :
    (b.settle t now).Shown (b.settled t encode w) := by
  have hkept (hw : b.Shown w) : (b.settle t now).Shown w :=
    hw.congr rfl rfl rfl fun u _ => b.settle_sounds t now u
  unfold settled Watch.given
  by_cases ht : w.target = some t
  · rw [if_pos ht]
    by_cases hc : w.codec ≠ pick encode (b.decodesFor t) w.decode
    · rw [if_pos hc]
      refine (lastShown_showing _ _ _ _).trans ?_
      show _ = some (w.target, _, w.target.bind _)
      rw [ht, Option.bind_some, settle_sounds]
      rfl
    · rw [if_neg hc]
      exact hkept (h.resolve_right fun he => hc he.2)
  · rw [if_neg ht]
    exact hkept (h.resolve_right fun he => ht he.1)

/-- Whoever is watched shares, and all watchers but some were told what they are
shown. -/
structure Board.ShownBut (b : Board β) (late : SessionId → Prop) : Prop where
  targets : ∀ (s : SessionId) (w : Watch) (t : SessionId), b.watches[s]? = some w →
    w.target = some t → (b.shares[t]?).isSome
  shown : ∀ (s : SessionId) (w : Watch), b.watches[s]? = some w → ¬late s → b.Shown w

variable {late : SessionId → Prop}

theorem Alike.sounds (h : Alike b b') (t : SessionId) : b'.sounds t = b.sounds t := by
  rw [Board.sounds_eq, Board.sounds_eq]
  cases hs : b'.shares[t]? with
  | none =>
    have hk := h.kept t
    rw [hs, eq_comm] at hk
    rw [Option.isSome_eq_false_iff.mp hk |> Option.isNone_iff_eq_none.mp]
  | some share' =>
    obtain ⟨share, hshare, hsame⟩ := h.shares t share' hs
    rw [hshare, Option.bind_some, Option.bind_some, hsame.sound]

theorem Board.ShownBut.alike (h : b.ShownBut late) (ha : Alike b b') : b'.ShownBut late := by
  have hcore (s : SessionId) (w' : Watch) (hw' : b'.watches[s]? = some w') :
      ∃ w, b.watches[s]? = some w ∧ w.core = w'.core := by
    have hw := ha.watches s
    rw [hw', Option.map_some, eq_comm, Option.map_eq_some_iff] at hw
    exact hw
  refine ⟨fun s w' t hw' ht => ?_, fun s w' hw' hn => ?_⟩
  · obtain ⟨w, hw, hc⟩ := hcore s w' hw'
    simp only [Watch.core, Prod.mk.injEq] at hc
    rw [ha.kept]
    exact h.targets s w t hw (hc.2.1.trans ht)
  · obtain ⟨w, hw, hc⟩ := hcore s w' hw'
    simp only [Watch.core, Prod.mk.injEq] at hc
    obtain ⟨-, ht, -, hcodec, -, -, hsaid⟩ := hc
    exact (h.shown s w hw hn).congr ht.symm hcodec.symm hsaid.symm fun t _ => ha.sounds t

theorem Board.ShownBut.settle (h : b.ShownBut late) (t : SessionId) (now : ℕ) :
    (b.settle t now).ShownBut late := by
  cases hb : b.shares[t]? with
  | none =>
    rw [settle_of_none hb]
    exact h
  | some share =>
    have hw := (settle_of_some hb now).watches
    refine ⟨fun s w' u hw' hu => ?_, fun s w' hw' hn => ?_⟩
    · rw [hw, Std.ExtTreeMap.getElem?_map, Option.map_eq_some_iff] at hw'
      obtain ⟨w, hw', rfl⟩ := hw'
      rw [(settled_sound b t share.encode w).2] at hu
      exact (b.settle_kept t now u).1.mpr (h.targets s w u hw' hu)
    · rw [hw, Std.ExtTreeMap.getElem?_map, Option.map_eq_some_iff] at hw'
      obtain ⟨w, hw', rfl⟩ := hw'
      exact b.settled_shown t share.encode now (.inl (h.shown s w hw' hn))

theorem Board.ShownBut.settleFor (h : b.ShownBut late) (target : Option SessionId) (now : ℕ) :
    (b.settleFor target now).ShownBut late := by
  unfold Board.settleFor
  split
  · exact h.settle _ now
  · exact h

theorem Board.ShownBut.settleBefore (h : b.ShownBut late) (before : Option SessionId)
    (target : SessionId) (now : ℕ) : (b.settleBefore before target now).ShownBut late := by
  unfold Board.settleBefore
  split
  · exact h.settle _ now
  · exact h

theorem Board.ShownBut.lose (h : b.ShownBut fun _ => False) (session : SessionId) :
    (({ b with shares := b.shares.erase session }).eachWatcher session Watch.lose).ShownBut
      fun _ => False := by
  have hat (s : SessionId) := eachWatcher_at { b with shares := b.shares.erase session } session s
    Watch.lose
  have hother (w : Watch) (hw : ¬w.target = some session) (t : SessionId) (ht : w.target = some t) :
      (b.shares.erase session)[t]? = b.shares[t]? := by
    rw [erase_at, if_neg fun he : t = session => hw (he ▸ ht)]
  refine ⟨fun s w' t hw' ht => ?_, fun s w' hw' _ => ?_⟩
  · rw [hat, Option.map_eq_some_iff] at hw'
    obtain ⟨w, hw, rfl⟩ := hw'
    by_cases htarget : w.target = some session
    · rw [if_pos htarget] at ht
      cases ht
    · rw [if_neg htarget] at ht
      show ((b.shares.erase session)[t]?).isSome
      rw [hother w htarget t ht]
      exact h.targets s w t hw ht
  · rw [hat, Option.map_eq_some_iff] at hw'
    obtain ⟨w, hw, rfl⟩ := hw'
    by_cases htarget : w.target = some session
    · rw [if_pos htarget]
      exact lastShown_showing _ _ _ _
    · rw [if_neg htarget]
      refine (h.shown s w hw id).congr rfl rfl rfl fun t ht => ?_
      rw [sounds_eq, sounds_eq]
      exact congrArg (fun o : Option (Share β) => o.bind fun share => flag share.sound)
        (hother w htarget t ht)

theorem Board.ShownBut.eraseWatch (h : b.ShownBut late) (session : SessionId) :
    ({ b with watches := b.watches.erase session } : Board β).ShownBut late := by
  have hat {s : SessionId} {w : Watch} (hw : (b.watches.erase session)[s]? = some w) :
      b.watches[s]? = some w := by
    rw [erase_at] at hw
    split at hw
    · cases hw
    · exact hw
  exact ⟨fun s w t hw ht => h.targets s w t (hat hw) ht, fun s w hw hn => h.shown s w (hat hw) hn⟩

/-- A watch put on the board: everybody else is told what they are shown as before. -/
theorem Board.ShownBut.putWatch (h : b.ShownBut fun _ => False) (session : SessionId) {w : Watch}
    (ht : ∀ t, w.target = some t → (b.shares[t]?).isSome)
    (hw : ¬late session → b.Shown w) : (b.putWatch session w).ShownBut late := by
  have hat (s : SessionId) : (b.putWatch session w).watches[s]? =
      if s = session then some w else b.watches[s]? := insert_at _ _ _ _
  refine ⟨fun s w' t hw' ht' => ?_, fun s w' hw' hn => ?_⟩
  · rw [hat] at hw'
    split at hw'
    · cases hw'
      exact ht t ht'
    · exact h.targets s w' t hw' ht'
  · rw [hat] at hw'
    split at hw'
    · next he =>
      cases hw'
      exact hw (he ▸ hn)
    · exact h.shown s w' hw' id

/-- One that can play none of what it turned to is told so at the end. -/
theorem shownBut_tellUnplayable {session target : SessionId} {w : Watch}
    (h : b.ShownBut fun s => s = session) (hw : b.watches[session]? = some w)
    (ht : w.target = some target) (hshown : w.codec ≠ none → b.Shown w) :
    (b.tellUnplayable session target).ShownBut fun _ => False := by
  unfold Board.tellUnplayable
  rw [hw]
  dsimp only
  split
  · next hc =>
    have hat (s : SessionId) := insert_at b.watches session s
      (w.tell (.showing (some target) none (b.sounds target)))
    refine ⟨fun s w' t hw' ht' => ?_, fun s w' hw' _ => ?_⟩
    · rw [Board.putWatch, hat] at hw'
      split at hw'
      · cases hw'
        exact h.targets session w t hw ht'
      · exact h.targets s w' t hw' ht'
    · rw [Board.putWatch, hat] at hw'
      split at hw'
      · cases hw'
        refine (lastShown_showing _ _ _ _).trans ?_
        show _ = some (w.target, w.codec, w.target.bind b.sounds)
        rw [ht, hc, Option.bind_some]
      · next hne => exact h.shown s w' hw' hne
  · next hc =>
    refine ⟨h.targets, fun s w' hw' _ => ?_⟩
    by_cases hs : s = session
    · rw [hs, hw] at hw'
      cases hw'
      exact hshown hc
    · exact h.shown s w' hw' hs

theorem settleBefore_watch {session target : SessionId} {w : Watch}
    (hw : b.watches[session]? = some w) (ht : w.target = some target) (before : Option SessionId)
    (now : ℕ) : (b.settleBefore before target now).watches[session]? = some w := by
  unfold Board.settleBefore
  split
  · next t hbefore =>
    have hne := (Option.filter_eq_some_iff.mp hbefore).2
    cases hb : b.shares[t]? with
    | none =>
      rw [Board.settle_of_none hb]
      exact hw
    | some share =>
      have hother : ¬w.target = some t := by
        rw [ht]
        intro he
        simp [Option.some.inj he] at hne
      rw [(Board.settle_of_some hb now).watches, Std.ExtTreeMap.getElem?_map, hw, Option.map_some,
        Board.settled, if_neg hother]
  · exact hw

/-- A watch that turns to a share is told what it is shown of it. -/
theorem shownBut_turnTo (h : b.ShownBut fun _ => False) {session target : SessionId} {w : Watch}
    (ht : w.target = some target) (hc : w.codec = none) (hs : (b.shares[target]?).isSome)
    (before : Option SessionId) (now : ℕ) :
    (b.turnTo session w before target now).ShownBut fun _ => False := by
  have hput : (b.putWatch session w).ShownBut fun s => s = session := by
    refine h.putWatch session (fun t he => ?_) fun hn => absurd rfl hn
    rw [← Option.some.inj (ht.symm.trans he)]
    exact hs
  have hbefore := hput.settleBefore before target now
  have hw : ((b.putWatch session w).settleBefore before target now).watches[session]? = some w := by
    refine settleBefore_watch ?_ ht before now
    rw [Board.putWatch, insert_at, if_pos rfl]
  obtain ⟨share, hshare⟩ := Option.isSome_iff_exists.mp (hbefore.targets session w target hw ht)
  have hsettled : (((b.putWatch session w).settleBefore before target now).settle target
      now).watches[session]? = some (((b.putWatch session w).settleBefore before target
        now).settled target share.encode w) := by
    rw [(Board.settle_of_some hshare now).watches, Std.ExtTreeMap.getElem?_map, hw, Option.map_some]
  refine shownBut_tellUnplayable (hbefore.settle target now) hsettled ?_ fun hn => ?_
  · rw [(Board.settled_sound _ target share.encode w).2]
    exact ht
  · refine Board.settled_shown _ target share.encode now (.inr ⟨ht, fun he => hn ?_⟩)
    rw [(Board.settled_codec share.encode ht).1, ← he, hc]

theorem shownBut_watch (h : b.ShownBut fun _ => False) (session : SessionId) (room : RoomId)
    (target : SessionId) (decode : List ScreenCodec) (sound : Bool) (now : ℕ) :
    (b.watch session room target decode sound now).1.ShownBut fun _ => False := by
  unfold Board.watch
  split
  · exact h
  · next hcan =>
    obtain ⟨-, hin⟩ := not_or.mp hcan
    have hin : b.sharesIn target room = true := by simpa using hin
    obtain ⟨share, hs, -⟩ := (sharesIn_iff b target room).mp hin
    obtain ⟨hshares, -⟩ :=
      closeReplaced_keeps b.nextSocket.1 ((b.watches[session]?).map Watch.socket)
    have h₂ := (h.alike (alike_nextSocket b)).alike
      (alike_closeReplaced b.nextSocket.1 ((b.watches[session]?).map Watch.socket))
    refine shownBut_turnTo h₂ rfl rfl ?_ _ now
    rw [hshares]
    show (b.shares[target]?).isSome
    rw [hs]
    rfl

theorem shownBut_switch (h : b.ShownBut fun _ => False) (session : SessionId) (socket : ℕ)
    (target : SessionId) (decode : Option (List ScreenCodec)) (now : ℕ) :
    (b.switch session socket target decode now).1.ShownBut fun _ => False := by
  unfold Board.switch
  split
  · exact h
  · next w _ =>
    dsimp only
    split
    · next hcan =>
      obtain ⟨share, hs, -⟩ := (sharesIn_iff b target w.room).mp hcan.2
      refine shownBut_turnTo h ?_ ?_ ?_ _ now
      · rfl
      · rfl
      · rw [hs]
        rfl
    · refine (h.putWatch session (fun t ht => ?_) fun _ => ?_).settleBefore w.target target now
      · cases ht
      · exact lastShown_showing _ _ _ _

theorem shownBut_unshare (h : b.ShownBut fun _ => False) (session : SessionId) (socket : ℕ) :
    (b.unshare session socket).1.ShownBut fun _ => False := by
  unfold Board.unshare
  split
  · exact h
  · dsimp only
    split
    · exact h
    · exact h.lose session

theorem shownBut_unwatch (h : b.ShownBut fun _ => False) (session : SessionId) (socket now : ℕ) :
    (b.unwatch session socket now).1.ShownBut fun _ => False := by
  unfold Board.unwatch
  split
  · exact h
  · next w _ => exact (h.eraseWatch session).settleFor w.target now

theorem shownBut_leave (h : b.ShownBut fun _ => False) (session : SessionId) (now : ℕ) :
    (b.leave session now).1.ShownBut fun _ => False := by
  apply leave_rule (P := fun b => b.ShownBut fun _ => False)
    (Q := fun b => b.ShownBut fun _ => False) b session now
  · exact fun _ => h
  · exact fun share _ => (h.lose session).alike (alike_close _ share.socket .ended)
  · exact fun _ h _ => h
  · intro b' w h _
    exact ((h.eraseWatch session).alike (alike_close _ w.socket .ended)).settleFor _ now

theorem shownBut_hear (h : b.ShownBut fun _ => False) (session : SessionId) (socket : ℕ)
    (on : Bool) : (b.hear session socket on).ShownBut fun _ => False := by
  rcases hear_cases b session socket on with he | ⟨w, hw, hrest⟩
  · rw [he]
    exact h
  · have hput : (b.putWatch session { w with sound := on }).ShownBut fun _ => False :=
      h.putWatch session (fun t ht => h.targets session w t hw ht) fun _ => h.shown session w hw id
    rcases hrest with he | ⟨t, share, hs, he⟩
    · rw [he]
      exact hput
    · rw [he]
      -- only whether the sound is sent changes, not whether there is any
      have hat (u : SessionId) := Board.putShare_at (b.putWatch session { w with sound := on }) t u
        { share with sounding := (b.putWatch session { w with sound := on }).listening t }.want
      refine ⟨fun s w' u hw' hu => ?_, fun s w' hw' hn => ?_⟩
      · rw [hat]
        split
        · rfl
        · exact hput.targets s w' u hw' hu
      · refine (hput.shown s w' hw' hn).congr rfl rfl rfl fun u _ => ?_
        rw [Board.sounds_eq, Board.sounds_eq, hat]
        split
        · next he =>
          rw [he, hs]
          rfl
        · rfl

/-- One whose formats are settled is given none just when it can play none. -/
theorem pick_eq_none {encode : List ScreenCodec} {watchers : List (List ScreenCodec)}
    {decode : List ScreenCodec} (hd : decode ∈ watchers) :
    pick encode watchers decode = none ↔ ¬∃ codec ∈ encode, codec ∈ decode := by
  unfold pick
  cases hc : common encode watchers with
  | some codec =>
    have hcommon : (watchers.all fun decode => decode.contains codec) = true :=
      List.find?_some (p := fun codec => watchers.all fun decode => decode.contains codec) hc
    have hall := List.all_eq_true.mp hcommon decode hd
    simp only [reduceCtorEq, false_iff, not_not]
    exact ⟨codec, List.mem_of_find?_eq_some hc, List.contains_iff_mem.mp hall⟩
  | none => simp [List.find?_eq_none]

/-- What sharing puts on the board before it is settled: a new share, and no format
for those who watched the one before. -/
structure Starts (b : Board β) (session : SessionId) (share : Share β) (b₀ : Board β) : Prop where
  shares : ∀ t : SessionId, b₀.shares[t]? = if t = session then some share else b.shares[t]?
  watches : ∀ s : SessionId, b₀.watches[s]? = (b.watches[s]?).map fun w : Watch =>
    if w.target = some session then { w with codec := none } else w
  socket : share.socket = b.sockets + 1
  sockets : b₀.sockets = b.sockets + 1
  handed : b₀.handed = b.handed

theorem share_eq (C : Ceiling β) (b : Board β) {session : SessionId} {room : RoomId}
    (encode : List ScreenCodec) (sound : Bool) (now : ℕ)
    (hroom : b.othersIn session room < maxScreensPerRoom) :
    ∃ b₀ share, Starts b session share b₀ ∧ share.room = room ∧ share.encode = encode ∧
      share.sound = sound ∧
      (b.share C session room encode sound now).1 = b₀.settle session now := by
  obtain ⟨hs, hw⟩ := closeReplaced_keeps b.nextSocket.1 ((b.shares[session]?).map Share.socket)
  obtain ⟨hsockets, hhanded⟩ :=
    closeReplaced_sockets b.nextSocket.1 ((b.shares[session]?).map Share.socket)
  let share : Share β :=
    { room := room, encode := encode, sound := sound, sounding := false, said := []
      socket := b.nextSocket.2, wanted := [], asked := fun _ => none, budget := C.full now }
  let b₀ := ((b.nextSocket.1.closeReplaced ((b.shares[session]?).map Share.socket)).eachWatcher
    session fun w => { w with codec := none }).putShare session share.want
  refine ⟨b₀, share.want, ⟨fun t => ?_, fun s => ?_, rfl, hsockets, hhanded⟩, rfl, rfl, rfl, ?_⟩
  · rw [Board.putShare_at, Board.eachWatcher, hs]
    rfl
  · show ((b.nextSocket.1.closeReplaced _).eachWatcher session _).watches[s]? = _
    rw [eachWatcher_at, hw]
    rfl
  · unfold Board.share
    rw [if_neg (Nat.not_le.mpr hroom)]

/-- Whoever watches a session that shares again can play one of the new formats,
or was given none and the sound is as it was. -/
def Board.Retold (b : Board β) (session : SessionId) (room : RoomId) (encode : List ScreenCodec)
    (sound : Bool) : Prop :=
  b.othersIn session room < maxScreensPerRoom → ∀ old ∈ b.shares[session]?,
    ∀ w ∈ b.watchersOf session,
      (∃ codec ∈ encode, codec ∈ w.decode) ∨ w.codec = none ∧ sound = old.sound

instance decidableRetold (b : Board β) (session : SessionId) (room : RoomId)
    (encode : List ScreenCodec) (sound : Bool) :
    Decidable (b.Retold session room encode sound) := by
  unfold Board.Retold
  infer_instance

theorem flag_inj {a c : Bool} (h : flag a = flag c) : a = c := by
  cases a <;> cases c <;> first | rfl | cases h

/-- A watcher knows what it is shown of a session that shares again just when it
is given a format, or had none and hears no other sound. -/
theorem share_watcher {session s : SessionId} {old share : Share β} {b₀ : Board β} {w : Watch}
    (h : b.Shown w) (hstarts : Starts b session share b₀) (hold : b.shares[session]? = some old)
    (hw : b.watches[s]? = some w) (ht : w.target = some session) (now : ℕ) :
    (b₀.settle session now).Shown (b₀.settled session share.encode { w with codec := none }) ↔
      (∃ codec ∈ share.encode, codec ∈ w.decode) ∨ w.codec = none ∧ share.sound = old.sound := by
  have hs : b₀.shares[session]? = some share := by rw [hstarts.shares, if_pos rfl]
  have hw₀ : b₀.watches[s]? = some { w with codec := none } := by
    rw [hstarts.watches, hw, Option.map_some, if_pos ht]
  have hd : w.decode ∈ b₀.decodesFor session :=
    List.mem_map.mpr ⟨_, (b₀.mem_watchersOf session _).mpr ⟨⟨s, hw₀⟩, ht⟩, rfl⟩
  by_cases hplays : ∃ codec ∈ share.encode, codec ∈ w.decode
  · have hpick := (pick_eq_none hd).not_left.mpr hplays
    exact iff_of_true (b₀.settled_shown session share.encode now
      (.inr ⟨ht, fun he => hpick he.symm⟩)) (.inl hplays)
  · have hpick := (pick_eq_none hd).mpr hplays
    have hsame : b₀.settled session share.encode { w with codec := none } =
        { w with codec := none } := by
      rw [Board.settled, if_pos ht, Watch.given]
      exact if_neg (not_not.mpr hpick.symm)
    have hsaid : lastShown w.line.said = some (some session, w.codec, flag old.sound) := by
      rw [h, ht, Option.bind_some, Board.sounds_eq, hold, Option.bind_some]
    have hsounds : (b₀.settle session now).sounds session = flag share.sound := by
      rw [Board.settle_sounds, Board.sounds_eq, hs, Option.bind_some]
    rw [hsame, Board.Shown, hsaid, ht, Option.bind_some, hsounds]
    constructor
    · intro he
      simp only [Option.some.injEq, Prod.mk.injEq, true_and] at he
      exact .inr ⟨he.1, (flag_inj he.2).symm⟩
    · rintro (hp | ⟨hc, hsound⟩)
      · exact absurd hp hplays
      · rw [hc, hsound]

/-- Sharing again leaves every watcher told what it is shown just when it is so
for each watcher it had. -/
theorem shownBut_share_iff (C : Ceiling β) (h : b.ShownBut fun _ => False) (session : SessionId)
    (room : RoomId) (encode : List ScreenCodec) (sound : Bool) (now : ℕ) :
    (b.share C session room encode sound now).1.ShownBut (fun _ => False) ↔
      b.Retold session room encode sound := by
  by_cases hroom : b.othersIn session room < maxScreensPerRoom
  · obtain ⟨b₀, share, hstarts, -, hencode, hsound, he⟩ := share_eq C b encode sound now hroom
    have hs : b₀.shares[session]? = some share := by rw [hstarts.shares, if_pos rfl]
    have hat (s : SessionId) : (b₀.settle session now).watches[s]? =
        (b₀.watches[s]?).map (b₀.settled session share.encode) := by
      rw [(Board.settle_of_some hs now).watches, Std.ExtTreeMap.getElem?_map]
    rw [he]
    constructor
    · intro hall _ old hold w hm
      obtain ⟨⟨s, hw⟩, ht⟩ := (b.mem_watchersOf session w).mp hm
      have hshown := hall.shown s (b₀.settled session share.encode { w with codec := none }) (by
        rw [hat, hstarts.watches, hw, Option.map_some, if_pos ht, Option.map_some]) id
      have hiff := share_watcher (h.shown s w hw id) hstarts hold hw ht now
      rw [hencode, hsound] at hiff
      exact hiff.mp (hencode ▸ hshown)
    · intro hretold
      have hwatched (s : SessionId) (w : Watch) (hw : b.watches[s]? = some w) (t : SessionId)
          (ht : w.target = some t) : (b₀.shares[t]?).isSome := by
        rw [hstarts.shares]
        split
        · rfl
        · exact h.targets s w t hw ht
      refine ⟨fun s w' t hw' ht => ?_, fun s w' hw' _ => ?_⟩
      · rw [hat, hstarts.watches, Option.map_map, Option.map_eq_some_iff] at hw'
        obtain ⟨w, hw, rfl⟩ := hw'
        rw [(b₀.settle_kept session now t).1]
        refine hwatched s w hw t (Eq.trans ?_ ht)
        rw [Function.comp_apply, (Board.settled_sound b₀ session share.encode _).2]
        split <;> rfl
      · rw [hat, hstarts.watches, Option.map_map, Option.map_eq_some_iff] at hw'
        obtain ⟨w, hw, rfl⟩ := hw'
        rw [Function.comp_apply]
        by_cases ht : w.target = some session
        · obtain ⟨old, hold⟩ := Option.isSome_iff_exists.mp (h.targets s w session hw ht)
          rw [if_pos ht]
          refine (share_watcher (h.shown s w hw id) hstarts hold hw ht now).mpr ?_
          rw [hencode, hsound]
          exact hretold hroom old hold w ((b.mem_watchersOf session w).mpr ⟨⟨s, hw⟩, ht⟩)
        · rw [if_neg ht]
          refine b₀.settled_shown session share.encode now (.inl ?_)
          refine (h.shown s w hw id).congr rfl rfl rfl fun t hwt => ?_
          have hne : t ≠ session := fun hts => ht (hts ▸ hwt)
          rw [Board.sounds_eq, Board.sounds_eq, hstarts.shares, if_neg hne]
  · have hsame : (b.share C session room encode sound now).1 = b := by
      rw [Board.share, if_pos (Nat.not_lt.mp hroom)]
    rw [hsame]
    exact iff_of_true h fun hlt => absurd hlt hroom

/-- No share is started again over a watcher it leaves with nothing it was told. -/
def Announced (st : Seated β) : Act → Prop
  | .share session room encode sound _ => st.board.Retold session room encode sound
  | _ => True

instance decidableAnnounced (st : Seated β) (a : Act) : Decidable (Announced st a) := by
  refine Act.casesOn a ?_ ?_ ?_ ?_ ?_ ?_ ?_ ?_ ?_ ?_ ?_
    ?_ <;> intros <;> unfold Announced <;> infer_instance

theorem shownBut_step (C : Ceiling β) {st st' : Seated β} {a : Act}
    (h : st.board.ShownBut fun _ => False) (hok : Announced st a) (hstep : step C st a = some st') :
    st'.board.ShownBut fun _ => False := by
  cases a with
  | share session room encode sound now =>
    cases hstep
    exact (shownBut_share_iff C h session room encode sound now).mpr hok
  | unshare session socket =>
    cases hstep
    exact shownBut_unshare h session socket
  | watch session room target decode sound now =>
    cases hstep
    exact shownBut_watch h session room target decode sound now
  | switch session socket target decode now =>
    cases hstep
    exact shownBut_switch h session socket target decode now
  | unwatch session socket now =>
    cases hstep
    exact shownBut_unwatch h session socket now
  | keyframe session socket now =>
    cases hstep
    exact h.alike (alike_keyframe st.board session socket now)
  | hear session socket on =>
    cases hstep
    exact shownBut_hear h session socket on
  | sound session socket packet now =>
    cases hstep
    exact h.alike (alike_soundAt C st.board session socket packet now)
  | frame session socket frame now =>
    cases hstep
    exact h.alike (alike_frameAt C st.board session socket frame now)
  | leave session now =>
    cases hstep
    exact shownBut_leave h session now
  | drain session d =>
    cases hstep
    exact h.alike (alike_drain st.board session d)
  | moves session room now =>
    cases hstep
    exact shownBut_leave h session now

/-- After every operation of a run whose shares are started again over nobody left
untold, each watcher was last told what it is shown. -/
theorem watchers_shown (C : Ceiling β) {acts : List Act} {st : Seated β}
    (hmeets : (machine C).Meets Announced acts) (hrun : (machine C).run acts = some st)
    (s : SessionId) (w : Watch) (hw : st.board.watches[s]? = some w) : st.board.Shown w := by
  have hstart : (Board.empty : Board β).ShownBut fun _ => False := by
    refine ⟨fun s w t hw => ?_, fun s w hw => ?_⟩
    · cases Std.ExtTreeMap.getElem?_empty.symm.trans hw
    · cases Std.ExtTreeMap.getElem?_empty.symm.trans hw
  have h := (machine C).invariant_of_meets (I := fun st => st.board.ShownBut fun _ => False) hstart
    (fun _ _ _ h hok hl => shownBut_step C h hok hl) hmeets hrun
  exact h.shown s w hw id

/-- Somebody watches a share that is started again with formats of the app's choosing. -/
def sharesAgain (encode : List ScreenCodec) (sound : Bool) : List Act :=
  [.moves 1 (some 5) 0, .moves 2 (some 5) 0, .share 1 5 [.vp8] false 0, .watch 2 5 1 [.vp8] false 1,
    .share 1 5 encode sound 2]

/-- With sound this time, in a format the watcher can play. -/
theorem watchers_shown_withSound :
    ∃ st w, (machine bucket).run (sharesAgain [.avc1, .vp8] true) = some st ∧
      st.board.watches[2]? = some w ∧ st.board.Shown w ∧
      lastShown w.line.said = some (some 1, some .vp8, some true) := by
  have hok : (machine bucket).Meets Announced (sharesAgain [.avc1, .vp8] true) := by decide
  have hruns : ∃ st w, (machine bucket).run (sharesAgain [.avc1, .vp8] true) = some st ∧
      st.board.watches[2]? = some w ∧
      lastShown w.line.said = some (some 1, some .vp8, some true) := ⟨_, _, rfl, rfl, rfl⟩
  obtain ⟨st, w, hr, hw, hsaid⟩ := hruns
  exact ⟨st, w, hr, hw, watchers_shown bucket hok hr 2 w hw, hsaid⟩

/-- In a format it can't: it was last told the old one, and is shown none. -/
theorem sharesAgain_untold :
    ∃ st w, (machine bucket).run (sharesAgain [.avc1] false) = some st ∧
      st.board.watches[2]? = some w ∧ ¬st.board.Shown w ∧ w.codec = none ∧
      lastShown w.line.said = some (some 1, some .vp8, none) := by
  have hruns : ∃ st w, (machine bucket).run (sharesAgain [.avc1] false) = some st ∧
      st.board.watches[2]? = some w ∧ w.codec = none ∧
      lastShown w.line.said = some (some 1, some .vp8, none) := ⟨_, _, rfl, rfl, rfl, rfl⟩
  obtain ⟨st, w, hr, hw, hc, hsaid⟩ := hruns
  refine ⟨st, w, hr, hw, fun hshown => ?_, hc, hsaid⟩
  rw [Board.Shown, hsaid, hc] at hshown
  simp at hshown

end Linger.Screens
