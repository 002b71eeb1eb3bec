import Linger.ScreensSettle

/-! The operations that leave who is shown what as it is: they move lines, gates,
what was asked for and what was paid, and no more. -/
namespace Linger.Screens
open FiniteMap

variable {β : Type}

/-- The last a watcher was told of what it is shown. -/
def ScreenWatchSays.shows :
    ScreenWatchSays → Option (Option SessionId × Option ScreenCodec × Option Bool)
  | .showing target codec sound => some (target, codec, sound)
  | .behind => none

def lastShown (said : List ScreenWatchSays) :
    Option (Option SessionId × Option ScreenCodec × Option Bool) :=
  (said.filterMap ScreenWatchSays.shows).getLast?

theorem lastShown_showing (said : List ScreenWatchSays) (target : Option SessionId)
    (codec : Option ScreenCodec) (sound : Option Bool) :
    lastShown (said ++ [.showing target codec sound]) = some (target, codec, sound) := by
  rw [lastShown, List.filterMap_append, List.getLast?_append]
  rfl

theorem lastShown_behind (said : List ScreenWatchSays) :
    lastShown (said ++ [.behind]) = lastShown said := by
  rw [lastShown, List.filterMap_append, List.getLast?_append]
  rfl

/-- What a watch is as to who is shown what, and what it was told of that, not
how its line is doing. -/
def Watch.core (w : Watch) :
    RoomId × Option SessionId × List ScreenCodec × Option ScreenCodec × Bool × ℕ ×
      Option (Option SessionId × Option ScreenCodec × Option Bool) :=
  (w.room, w.target, w.decode, w.codec, w.sound, w.socket, lastShown w.line.said)

theorem WatchLine.drain_said (line : WatchLine) (d : Drain) : (line.drain d).said = line.said := by
  cases d <;> rfl

theorem WatchLine.trySound_said (line : WatchLine) (packet : List UInt8) :
    (line.trySound packet).1.said = line.said := by
  unfold trySound
  split <;> rfl

theorem WatchLine.trySend_said (line : WatchLine) (n : ℕ) (frame : List UInt8) :
    (line.trySend n frame).1.said = line.said := by
  unfold trySend
  split
  · rfl
  · split <;> rfl

theorem core_line (w : Watch) {line : WatchLine} (h : line.said = w.line.said) :
    ({ w with line := line } : Watch).core = w.core := by
  simp only [Watch.core, h]

/-- Two boards that differ in their lines, their gates and what was paid for. -/
structure Alike (b b' : Board β) : Prop where
  watches : ∀ s : SessionId, (b'.watches[s]?).map Watch.core = (b.watches[s]?).map Watch.core
  shares : ∀ (s : SessionId) (share' : Share β), b'.shares[s]? = some share' →
    ∃ share, b.shares[s]? = some share ∧ share.Same share'
  kept : ∀ s : SessionId, (b'.shares[s]?).isSome = (b.shares[s]?).isSome
  sockets : b.sockets ≤ b'.sockets

theorem Alike.refl (b : Board β) : Alike b b :=
  ⟨fun _ => rfl, fun _ share h => ⟨share, h, Share.Same.refl share⟩, fun _ => rfl, Nat.le_refl _⟩

theorem Alike.trans {b₁ b₂ b₃ : Board β} (h : Alike b₁ b₂) (h' : Alike b₂ b₃) : Alike b₁ b₃ := by
  refine ⟨fun s => (h'.watches s).trans (h.watches s), fun s share hs => ?_,
    fun s => (h'.kept s).trans (h.kept s), h.sockets.trans h'.sockets⟩
  obtain ⟨s₂, hs₂, hsame₂⟩ := h'.shares s share hs
  obtain ⟨s₁, hs₁, hsame₁⟩ := h.shares s s₂ hs₂
  exact ⟨s₁, hs₁, hsame₁.trans hsame₂⟩

theorem alike_putShare {b : Board β} {t : SessionId} {share share' : Share β}
    (h : b.shares[t]? = some share) (hs : share.Same share') : Alike b (b.putShare t share') := by
  refine ⟨fun _ => rfl, fun s s' hs' => ?_, fun s => ?_, Nat.le_refl _⟩
  · rw [Board.putShare_at] at hs'
    split at hs'
    · next he =>
      cases hs'
      exact ⟨share, he ▸ h, hs⟩
    · exact ⟨s', hs', Share.Same.refl s'⟩
  · rw [Board.putShare_at]
    split
    · next he => rw [he, h]; rfl
    · rfl

theorem alike_watches {b b' : Board β} (hs : b'.shares = b.shares)
    (hw : ∀ s : SessionId, (b'.watches[s]?).map Watch.core = (b.watches[s]?).map Watch.core)
    (hn : b.sockets ≤ b'.sockets) : Alike b b' :=
  ⟨hw, fun _ share h => ⟨share, hs ▸ h, Share.Same.refl share⟩, fun _ => by rw [hs], hn⟩

theorem alike_putWatch {b : Board β} {s : SessionId} {w w' : Watch} (h : b.watches[s]? = some w)
    (hc : w'.core = w.core) : Alike b (b.putWatch s w') := by
  refine alike_watches rfl (fun a => ?_) (Nat.le_refl _)
  rw [Board.putWatch, insert_at]
  split
  · next ha => rw [ha, h, Option.map_some, Option.map_some, hc]
  · rfl

theorem alike_map {b b' : Board β} (hs : b'.shares = b.shares) (f : Watch → Watch)
    (hw : b'.watches = b.watches.map fun _ w => f w) (hc : ∀ w, (f w).core = w.core)
    (hn : b.sockets ≤ b'.sockets) : Alike b b' := by
  refine alike_watches hs (fun a => ?_) hn
  rw [hw, Std.ExtTreeMap.getElem?_map, Option.map_map]
  exact congrArg (fun g => Option.map g b.watches[a]?) (funext hc)

theorem alike_askKeyframe (b : Board β) (t : SessionId) (codec : ScreenCodec) (now : ℕ) :
    Alike b (b.askKeyframe t codec now) := by
  cases h : b.shares[t]? with
  | none =>
    unfold Board.askKeyframe
    rw [h]
    exact Alike.refl b
  | some share =>
    obtain ⟨share', hs, he⟩ := Board.askKeyframe_eq h codec now
    rw [he]
    exact alike_putShare h hs

theorem pass_core (w : Watch) (session : SessionId) (head : ScreenFrameHead) (isOver : Bool) (n : ℕ)
    (frame : List UInt8) : (w.pass session head isOver n frame).1.core = w.core := by
  have hbehind : ({ w with gated := true } : Watch).tellBehind.core = w.core := by
    show (w.room, w.target, w.decode, w.codec, w.sound, w.socket,
      lastShown (w.line.said ++ [.behind])) = _
    rw [lastShown_behind]
    rfl
  unfold Watch.pass
  split
  · rfl
  split
  · rfl
  split
  · rfl
  split
  · exact hbehind
  split
  · next line hsent =>
    have hsaid := w.line.trySend_said n frame
    rw [hsent] at hsaid
    exact core_line w hsaid
  · exact hbehind
  · rfl

theorem alike_close (b : Board β) (socket : ℕ) (why : Closing) : Alike b (b.close socket why) :=
  alike_watches rfl (fun _ => rfl) (Nat.le_refl _)

theorem alike_keyframe (b : Board β) (session : SessionId) (socket now : ℕ) :
    Alike b (b.keyframe session socket now) := by
  unfold Board.keyframe Board.watchOn
  split
  · exact Alike.refl b
  · next w hw =>
    rw [Option.filter_eq_some_iff] at hw
    have hput : Alike b (b.putWatch session { w with gated := true }) := alike_putWatch hw.1 rfl
    dsimp only
    split
    · exact hput.trans (alike_askKeyframe _ _ _ _)
    · exact hput

theorem alike_drain (b : Board β) (session : SessionId) (d : WatchLine.Drain) :
    Alike b (b.drain session d) := by
  refine alike_watches rfl (fun s => ?_) (Nat.le_refl _)
  unfold Board.drain
  rw [modify_at]
  split
  · rw [Option.map_map]
    exact congrArg (fun g => Option.map g b.watches[s]?)
      (funext fun w => core_line w (w.line.drain_said d))
  · rfl

theorem alike_soundAt (C : Ceiling β) (b : Board β) (session : SessionId) (socket : ℕ)
    (packet : List UInt8) (now : ℕ) : Alike b (b.soundAt C session socket packet now).1 := by
  unfold Board.soundAt
  split
  · exact Alike.refl b
  · split
    · exact Alike.refl b
    · next share hs =>
      rw [Option.filter_eq_some_iff] at hs
      have hput : Alike b (b.putShare session
          { share with budget := (C.afford share.budget packet.length now).1 }) :=
        alike_putShare hs.1 ⟨rfl, rfl, rfl, rfl, rfl, rfl, rfl⟩
      dsimp only
      split
      · exact hput
      · refine hput.trans (alike_map rfl _ rfl (fun w => ?_) (Nat.le_refl _))
        split
        · exact core_line w (w.line.trySound_said packet)
        · rfl

theorem alike_passAll (b : Board β) (session : SessionId) (head : ScreenFrameHead) (isOver : Bool)
    (n : ℕ) (frame : List UInt8) : Alike b (b.passAll session head isOver n frame) :=
  alike_map rfl _ rfl (fun w => pass_core w session head isOver n frame) (Nat.le_refl _)

/-- All that a frame can do: nothing unless it reads as one; else it is handed
over, and goes past the watchers when it comes on the share's own socket, in a
format it was asked to make. -/
theorem frameAt_cases (C : Ceiling β) (b : Board β) (session : SessionId) (socket : ℕ)
    (frame : List UInt8) (now : ℕ) :
    (b.frameAt C session socket frame now).1 = b ∨
      ∃ head, ScreenFrameHead.read frame = some head ∧
        (((b.frameAt C session socket frame now).1 = b.hand ⟨session, socket, head⟩ ∧
            ∀ share, b.shares[session]? = some share → share.socket = socket →
              head.codec ∉ share.wanted) ∨
          ∃ share share' isOver, b.shares[session]? = some share ∧ share.socket = socket ∧
            share.Same share' ∧ (b.frameAt C session socket frame now).1 =
              ((b.hand ⟨session, socket, head⟩).passAll session head isOver b.handed.length
                frame).putShare session share') := by
  unfold Board.frameAt
  split
  · exact .inl rfl
  · next head hread =>
    refine .inr ⟨head, hread, ?_⟩
    dsimp only
    split
    · next hs =>
      refine .inl ⟨rfl, fun share hshare hsocket _ => ?_⟩
      have hs := Option.filter_eq_none_iff.mp hs share hshare
      simp [hsocket] at hs
    · next share hs =>
      obtain ⟨hshare, hsocket⟩ := Option.filter_eq_some_iff.mp hs
      have hshare : b.shares[session]? = some share := hshare
      split
      · next hw =>
        refine .inl ⟨rfl, fun s hs' _ hm => ?_⟩
        rw [hshare] at hs'
        cases hs'
        simp [hm] at hw
      · refine .inr ⟨share, ?_⟩
        let paid := C.afford share.budget frame.length now
        let paying : Share β := { share with budget := paid.1 }
        let passed := ((b.hand ⟨session, socket, head⟩).putShare session paying).passAll session
          head (!paid.2) b.handed.length frame
        have hpaying : passed.shares[session]? = some paying := by
          show (b.shares.insert session paying)[session]? = _
          rw [insert_at, if_pos rfl]
        have hsame : share.Same paying := ⟨rfl, rfl, rfl, rfl, rfl, rfl, rfl⟩
        split
        · obtain ⟨s', hs', he⟩ := Board.askKeyframe_eq hpaying head.codec now
          refine ⟨s', !paid.2, hshare, by simpa using hsocket, hsame.trans hs', ?_⟩
          exact he.trans (Board.putShare_putShare ((b.hand ⟨session, socket, head⟩).passAll session
            head (!paid.2) b.handed.length frame) session paying s')
        · exact ⟨paying, !paid.2, hshare, by simpa using hsocket, hsame, rfl⟩

theorem alike_frameAt (C : Ceiling β) (b : Board β) (session : SessionId) (socket : ℕ)
    (frame : List UInt8) (now : ℕ) : Alike b (b.frameAt C session socket frame now).1 := by
  have hhanded (h : Handed) : Alike b (b.hand h) :=
    alike_watches rfl (fun _ => rfl) (Nat.le_refl _)
  rcases frameAt_cases C b session socket frame now with
    he | ⟨head, -, ⟨he, -⟩ | ⟨share, share', isOver, hs, -, hsame, he⟩⟩
  · rw [he]
    exact Alike.refl b
  · rw [he]
    exact hhanded _
  · rw [he]
    have hpassed := alike_passAll (b.hand ⟨session, socket, head⟩) session head isOver
      b.handed.length frame
    exact ((hhanded _).trans hpassed).trans (alike_putShare hs hsame)

end Linger.Screens
