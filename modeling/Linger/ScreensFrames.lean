import Linger.KeyedStream
import Linger.ScreensShowing

/-! What is put on a watcher's line can be decoded: a line that is let past its gate
holds the last key frame of what it is shown, and everything that came after it. -/
namespace Linger.Screens
open FiniteMap StepMachine KeyedStream

variable {β : Type} {b b' : Board β}

/-- The encoder a frame came out of: whose share, on which socket, in which format. -/
def Handed.encoder (h : Handed) : SessionId × ℕ × ScreenCodec := (h.session, h.socket, h.head.codec)

def Handed.key (h : Handed) : Bool := h.head.key

/-- The numbers of the frames on a line. -/
def WatchLine.numbers (line : WatchLine) : List ℕ := line.frames.map Prod.fst

/-- Everything on a line is a frame the board was handed, and can be decoded. -/
structure WatchLine.Decodable (line : WatchLine) (handed : List Handed) : Prop where
  read : ∀ e ∈ line.frames, ∃ h, handed[e.1]? = some h ∧ ScreenFrameHead.read e.2 = some h.head
  playable : Playable Handed.encoder Handed.key handed line.numbers

/-- What holds of a watch as frames come and go: its share makes its format, its
line can be decoded, and so can whatever is next let past its gate. -/
structure Board.Fed (b : Board β) (w : Watch) : Prop where
  made : ∀ codec, w.codec = some codec → ∃ t share, w.target = some t ∧
    b.shares[t]? = some share ∧ codec ∈ share.wanted
  line : w.line.Decodable b.handed
  ready : ∀ t share codec, w.target = some t → b.shares[t]? = some share →
    w.codec = some codec → w.gated = false → w.line.closed = false →
      Ready Handed.encoder Handed.key b.handed w.line.numbers (t, share.socket, codec)

def Board.AllFed (b : Board β) : Prop :=
  ∀ (s : SessionId) (w : Watch), b.watches[s]? = some w → b.Fed w

/-- One that has no format is sent nothing. -/
theorem Board.Fed.of_none {w : Watch} (hc : w.codec = none) (hline : w.line.Decodable b.handed) :
    b.Fed w := by
  refine ⟨fun codec h => ?_, hline, fun t share codec _ _ h => ?_⟩
  · rw [hc] at h
    cases h
  · rw [hc] at h
    cases h

/-- A watch that is shown what it was, on a line no further on, at a gate no more open. -/
theorem Board.Fed.congr {w w' : Watch} (h : b.Fed w) (ht : w'.target = w.target)
    (hc : w'.codec = w.codec) (hframes : w'.line.frames = w.line.frames)
    (hgated : w'.gated = false → w.gated = false)
    (hclosed : w'.line.closed = false → w.line.closed = false) (hhanded : b'.handed = b.handed)
    (hs : ∀ t share, w.target = some t → w.codec ≠ none → b.shares[t]? = some share →
      ∃ share', b'.shares[t]? = some share' ∧ share'.socket = share.socket ∧
        share'.wanted = share.wanted) : b'.Fed w' := by
  have hnumbers : w'.line.numbers = w.line.numbers := congrArg (List.map Prod.fst) hframes
  refine ⟨fun codec hcodec => ?_, ⟨?_, ?_⟩, fun t share' codec htarget hshare hcodec hg hcl => ?_⟩
  · rw [hc] at hcodec
    obtain ⟨t, share, htarget, hshare, hm⟩ := h.made codec hcodec
    obtain ⟨share', hshare', -, hwanted⟩ := hs t share htarget (by rw [hcodec]; simp) hshare
    exact ⟨t, share', by rw [ht, htarget], hshare', by rw [hwanted]; exact hm⟩
  · rw [hframes, hhanded]
    exact h.line.read
  · rw [hnumbers, hhanded]
    exact h.line.playable
  · rw [hc] at hcodec
    rw [ht] at htarget
    obtain ⟨u, share, hu, hshare₀, -⟩ := h.made codec hcodec
    cases Option.some.inj (hu.symm.trans htarget)
    obtain ⟨share₁, hshare₁, hsocket, -⟩ := hs t share htarget (by rw [hcodec]; simp) hshare₀
    rw [hshare] at hshare₁
    cases hshare₁
    rw [hnumbers, hhanded, hsocket]
    exact h.ready t share codec htarget hshare₀ hcodec (hgated hg) (hclosed hcl)

/-- Shares with the socket and the formats they had, and nothing more handed over. -/
structure Goes (b b' : Board β) : Prop where
  shares : ∀ (t : SessionId) (share : Share β), b.shares[t]? = some share →
    ∃ share', b'.shares[t]? = some share' ∧ share'.socket = share.socket ∧
      share'.wanted = share.wanted
  handed : b'.handed = b.handed

theorem Board.Fed.goes {w : Watch} (h : b.Fed w) (hb : Goes b b') : b'.Fed w :=
  h.congr rfl rfl rfl id id hb.handed fun t share _ _ hs => hb.shares t share hs

theorem Goes.of_eq (hs : b'.shares = b.shares) (hh : b'.handed = b.handed) : Goes b b' :=
  ⟨fun _ share h => ⟨share, hs ▸ h, rfl, rfl⟩, hh⟩

theorem goes_putShare {t : SessionId} {share share' : Share β} (hs : b.shares[t]? = some share)
    (hsocket : share'.socket = share.socket) (hwanted : share'.wanted = share.wanted) :
    Goes b (b.putShare t share') := by
  refine ⟨fun u s hu => ?_, rfl⟩
  rw [Board.putShare_at]
  split
  · next he =>
    rw [he, hs] at hu
    cases hu
    exact ⟨share', rfl, hsocket, hwanted⟩
  · exact ⟨s, hu, rfl, rfl⟩

theorem goes_askKeyframe (b : Board β) (t : SessionId) (codec : ScreenCodec) (now : ℕ) :
    Goes b (b.askKeyframe t codec now) ∧ (b.askKeyframe t codec now).watches = b.watches := by
  cases h : b.shares[t]? with
  | none =>
    unfold Board.askKeyframe
    rw [h]
    exact ⟨Goes.of_eq rfl rfl, rfl⟩
  | some share =>
    obtain ⟨share', hsame, he⟩ := Board.askKeyframe_eq h codec now
    rw [he]
    exact ⟨goes_putShare h hsame.socket hsame.wanted, rfl⟩

theorem Board.AllFed.goes (h : b.AllFed) (hb : Goes b b') (hw : b'.watches = b.watches) :
    b'.AllFed := fun s w hs => (h s w (hw ▸ hs)).goes hb

theorem Board.AllFed.putWatch (h : b.AllFed) {session : SessionId} {w : Watch} (hw : b.Fed w) :
    (b.putWatch session w).AllFed := by
  intro s w' hs
  rw [Board.putWatch, insert_at] at hs
  have hsame : Goes b (b.putWatch session w) := Goes.of_eq rfl rfl
  split at hs
  · cases hs
    exact hw.goes hsame
  · exact (h s w' hs).goes hsame

/-- Settling a share gates whoever it gives another format, and its formats are
those it makes from then on. -/
theorem Board.AllFed.settle (h : b.AllFed) (t : SessionId) (now : ℕ) : (b.settle t now).AllFed := by
  cases hb : b.shares[t]? with
  | none =>
    rw [settle_of_none hb]
    exact h
  | some share =>
    obtain ⟨hw, -, hhanded, share', hshares, -, -, -, hsocket, hwanted, -⟩ := settle_of_some hb now
    have hat (u : SessionId) : (b.settle t now).shares[u]? =
        if u = t then some share' else b.shares[u]? := by rw [hshares, insert_at]
    intro s w' hs
    rw [hw, Std.ExtTreeMap.getElem?_map, Option.map_eq_some_iff] at hs
    obtain ⟨w, hs, rfl⟩ := hs
    by_cases ht : w.target = some t
    · have hd : w.decode ∈ b.decodesFor t :=
        List.mem_map.mpr ⟨w, (b.mem_watchersOf t w).mpr ⟨⟨s, hs⟩, ht⟩, rfl⟩
      have hcodec := (settled_codec (b := b) share.encode ht).1
      have htarget := (settled_sound b t share.encode w).2
      refine ⟨fun codec hc => ?_, ?_, fun u s' codec hu hs' hc hg hcl => ?_⟩
      · refine ⟨t, share', htarget.trans ht, by rw [hat, if_pos rfl], ?_⟩
        rw [hwanted]
        exact pick_wanted hd (hcodec.symm.trans hc)
      · have hframes : (b.settled t share.encode w).line.frames = w.line.frames := by
          rw [settled, if_pos ht, Watch.given]
          split <;> rfl
        have hline := (h s w hs).line
        rw [hhanded]
        exact ⟨hframes ▸ hline.read, by rw [WatchLine.numbers, hframes]; exact hline.playable⟩
      · -- past the gate, it has the format it had
        have hsame : b.settled t share.encode w = w := by
          unfold settled Watch.given at hg ⊢
          rw [if_pos ht] at hg ⊢
          split at hg
          · cases hg
          · next hsame => rw [if_neg hsame]
        rw [hsame] at hu hc hg hcl ⊢
        cases Option.some.inj (ht.symm.trans hu)
        rw [hat, if_pos rfl] at hs'
        cases hs'
        rw [hhanded, hsocket]
        exact (h s w hs).ready t share codec ht hb hc hg hcl
    · have hsame : b.settled t share.encode w = w := if_neg ht
      rw [hsame]
      refine (h s w hs).congr rfl rfl rfl id id hhanded fun u s' hu _ hs' => ?_
      have hne : u ≠ t := fun he => ht (he ▸ hu)
      exact ⟨s', by rw [hat, if_neg hne]; exact hs', rfl, rfl⟩

theorem Board.AllFed.settleFor (h : b.AllFed) (target : Option SessionId) (now : ℕ) :
    (b.settleFor target now).AllFed := by
  unfold Board.settleFor
  split
  · exact h.settle _ now
  · exact h

theorem Board.AllFed.settleBefore (h : b.AllFed) (before : Option SessionId) (target : SessionId)
    (now : ℕ) : (b.settleBefore before target now).AllFed := by
  unfold Board.settleBefore
  split
  · exact h.settle _ now
  · exact h

theorem fed_tellUnplayable (h : b.AllFed) (session target : SessionId) :
    (b.tellUnplayable session target).AllFed := by
  unfold Board.tellUnplayable
  split
  · exact h
  · next w hw =>
    split
    · refine h.putWatch ?_
      exact (h session w hw).congr rfl rfl rfl id id rfl fun _ share _ _ hs => ⟨share, hs, rfl, rfl⟩
    · exact h

theorem fed_turnTo (h : b.AllFed) (session : SessionId) {w : Watch} (hc : w.codec = none)
    (hline : w.line.Decodable b.handed) (before : Option SessionId) (target : SessionId) (now : ℕ) :
    (b.turnTo session w before target now).AllFed :=
  fed_tellUnplayable ((((h.putWatch (Board.Fed.of_none hc hline)).settleBefore before target
    now)).settle target now) session target

theorem fed_watch (h : b.AllFed) (session : SessionId) (room : RoomId) (target : SessionId)
    (decode : List ScreenCodec) (sound : Bool) (now : ℕ) :
    (b.watch session room target decode sound now).1.AllFed := by
  unfold Board.watch
  split
  · exact h
  · obtain ⟨hs, hw⟩ := closeReplaced_keeps b.nextSocket.1 ((b.watches[session]?).map Watch.socket)
    obtain ⟨-, hh⟩ := closeReplaced_sockets b.nextSocket.1 ((b.watches[session]?).map Watch.socket)
    have h₂ : (b.nextSocket.1.closeReplaced ((b.watches[session]?).map Watch.socket)).AllFed :=
      h.goes (Goes.of_eq hs hh) hw
    refine fed_turnTo h₂ session rfl ⟨fun e he => ?_, playable_nil _⟩ _ target now
    exact absurd he List.not_mem_nil

theorem fed_switch (h : b.AllFed) (session : SessionId) (socket : ℕ) (target : SessionId)
    (decode : Option (List ScreenCodec)) (now : ℕ) :
    (b.switch session socket target decode now).1.AllFed := by
  unfold Board.switch Board.watchOn
  split
  · exact h
  · next w hw =>
    have hline := (h session w (Option.filter_eq_some_iff.mp hw).1).line
    dsimp only
    split
    · refine fed_turnTo h session ?_ ?_ _ target now
      · rfl
      · exact hline
    · refine (h.putWatch (Board.Fed.of_none ?_ ?_)).settleBefore w.target target now
      · rfl
      · exact ⟨hline.read, hline.playable⟩

theorem fed_eraseWatch (h : b.AllFed) (session : SessionId) :
    ({ b with watches := b.watches.erase session } : Board β).AllFed := by
  intro s w hw
  have hw : (b.watches.erase session)[s]? = some w := hw
  rw [erase_at] at hw
  split at hw
  · cases hw
  · exact (h s w hw).goes (Goes.of_eq rfl rfl)

/-- Whoever watched a share that ends has no format, and no other share is touched. -/
theorem fed_lose (h : b.AllFed) (session : SessionId) :
    (({ b with shares := b.shares.erase session }).eachWatcher session Watch.lose).AllFed := by
  intro s w' hw'
  rw [eachWatcher_at, Option.map_eq_some_iff] at hw'
  obtain ⟨w, hw, rfl⟩ := hw'
  by_cases ht : w.target = some session
  · rw [if_pos ht]
    exact Board.Fed.of_none rfl ⟨(h s w hw).line.read, (h s w hw).line.playable⟩
  · rw [if_neg ht]
    refine (h s w hw).congr rfl rfl rfl id id rfl fun t share hwt _ hs => ⟨share, ?_, rfl, rfl⟩
    show (b.shares.erase session)[t]? = some share
    rw [erase_at, if_neg fun he : t = session => ht (he ▸ hwt)]
    exact hs

theorem fed_unshare (h : b.AllFed) (session : SessionId) (socket : ℕ) :
    (b.unshare session socket).1.AllFed := by
  unfold Board.unshare
  split
  · exact h
  · dsimp only
    split
    · exact h
    · exact fed_lose h session

theorem fed_unwatch (h : b.AllFed) (session : SessionId) (socket now : ℕ) :
    (b.unwatch session socket now).1.AllFed := by
  unfold Board.unwatch
  split
  · exact h
  · next w _ => exact (fed_eraseWatch h session).settleFor w.target now

theorem goes_close (b : Board β) (socket : ℕ) (why : Closing) : Goes b (b.close socket why) :=
  Goes.of_eq rfl rfl

theorem fed_leave (h : b.AllFed) (session : SessionId) (now : ℕ) :
    (b.leave session now).1.AllFed := by
  apply leave_rule (P := Board.AllFed) (Q := Board.AllFed) b session now
  · exact fun _ => h
  · exact fun share _ => (fed_lose h session).goes (goes_close _ share.socket .ended) rfl
  · exact fun _ h _ => h
  · intro b' w h _
    exact ((fed_eraseWatch h session).goes (goes_close _ w.socket .ended) rfl).settleFor _ now

theorem fed_keyframe (h : b.AllFed) (session : SessionId) (socket now : ℕ) :
    (b.keyframe session socket now).AllFed := by
  unfold Board.keyframe Board.watchOn
  split
  · exact h
  · next w hw =>
    have hw := (Option.filter_eq_some_iff.mp hw).1
    have hput : (b.putWatch session { w with gated := true }).AllFed := by
      refine h.putWatch ((h session w hw).congr rfl rfl rfl ?_ id rfl fun _ share _ _ hs => ?_)
      · intro hg
        cases hg
      · exact ⟨share, hs, rfl, rfl⟩
    dsimp only
    split
    · obtain ⟨hgoes, hwatches⟩ :=
        goes_askKeyframe (b.putWatch session { w with gated := true }) _ _ now
      exact hput.goes hgoes hwatches
    · exact hput

theorem fed_hear (h : b.AllFed) (session : SessionId) (socket : ℕ) (on : Bool) :
    (b.hear session socket on).AllFed := by
  rcases hear_cases b session socket on with he | ⟨w, hw, hrest⟩
  · rw [he]
    exact h
  · have hput : (b.putWatch session { w with sound := on }).AllFed :=
      h.putWatch ((h session w hw).congr rfl rfl rfl id id rfl fun _ share _ _ hs =>
        ⟨share, hs, rfl, rfl⟩)
    rcases hrest with he | ⟨t, share, hs, he⟩
    · rw [he]
      exact hput
    · rw [he]
      exact hput.goes (goes_putShare hs rfl rfl) rfl

/-- Sharing again is a new encoder: whoever watched has no format until it is settled. -/
theorem fed_share (C : Ceiling β) (h : b.AllFed) (session : SessionId) (room : RoomId)
    (encode : List ScreenCodec) (sound : Bool) (now : ℕ) :
    (b.share C session room encode sound now).1.AllFed := by
  by_cases hroom : b.othersIn session room < maxScreensPerRoom
  · obtain ⟨b₀, share, hstarts, -, -, -, he⟩ := share_eq C b encode sound now hroom
    rw [he]
    refine Board.AllFed.settle (fun s w' hw' => ?_) session now
    rw [hstarts.watches, Option.map_eq_some_iff] at hw'
    obtain ⟨w, hw, rfl⟩ := hw'
    by_cases ht : w.target = some session
    · rw [if_pos ht]
      refine Board.Fed.of_none rfl ?_
      rw [hstarts.handed]
      exact (h s w hw).line
    · rw [if_neg ht]
      refine (h s w hw).congr rfl rfl rfl id id hstarts.handed fun t share' hwt _ hs => ?_
      have hne : t ≠ session := fun hts => ht (hts ▸ hwt)
      exact ⟨share', by rw [hstarts.shares, if_neg hne]; exact hs, rfl, rfl⟩
  · rw [Board.share, if_pos (Nat.not_lt.mp hroom)]
    exact h

theorem fed_drain (h : b.AllFed) (session : SessionId) (d : WatchLine.Drain) :
    (b.drain session d).AllFed := by
  intro s w' hw'
  have hkept (w : Watch) (hw : b.Fed w) : b.Fed { w with line := w.line.drain d } := by
    refine hw.congr rfl rfl ?_ id ?_ rfl fun _ share _ _ hs => ⟨share, hs, rfl, rfl⟩
    · cases d <;> rfl
    · cases d with
      | goes => exact fun hn => by cases hn
      | _ => exact id
  rw [Board.drain, modify_at] at hw'
  split at hw'
  · obtain ⟨w, hw, rfl⟩ := Option.map_eq_some_iff.mp hw'
    exact (hkept w (h s w hw)).goes (Goes.of_eq rfl rfl)
  · exact (h s w' hw').goes (Goes.of_eq rfl rfl)

theorem fed_soundAt (C : Ceiling β) (h : b.AllFed) (session : SessionId) (socket : ℕ)
    (packet : List UInt8) (now : ℕ) : (b.soundAt C session socket packet now).1.AllFed := by
  unfold Board.soundAt
  split
  · exact h
  · split
    · exact h
    · next share hs =>
      have hs := (Option.filter_eq_some_iff.mp hs).1
      have hput : (b.putShare session
          { share with budget := (C.afford share.budget packet.length now).1 }).AllFed :=
        h.goes (goes_putShare hs rfl rfl) rfl
      dsimp only
      split
      · exact hput
      · intro s w' hw'
        have hw' : ((b.putShare session { share with
            budget := (C.afford share.budget packet.length now).1 }).watches.map fun _ w =>
              if w.sound && w.target = some session then
                { w with line := (w.line.trySound packet).1 }
              else w)[s]? = some w' := hw'
        rw [Std.ExtTreeMap.getElem?_map, Option.map_eq_some_iff] at hw'
        obtain ⟨w, hw, rfl⟩ := hw'
        have hfed := (hput s w hw)
        split
        · refine hfed.congr rfl rfl ?_ id ?_ rfl fun _ share _ _ hs => ⟨share, hs, rfl, rfl⟩
          · unfold WatchLine.trySound
            split <;> rfl
          · unfold WatchLine.trySound
            split <;> exact id
        · exact hfed.goes (Goes.of_eq rfl rfl)

/-- All a frame can come to at a watcher: it passes it by, it finds or leaves it
gated, it goes on the line, or nobody takes it off there any more. -/
theorem pass_cases (w : Watch) (session : SessionId) (head : ScreenFrameHead) (isOver : Bool)
    (n : ℕ) (frame : List UInt8) {w' : Watch} (hw' : (w.pass session head isOver n frame).1 = w') :
    w'.target = w.target ∧ w'.codec = w.codec ∧
      ((w' = w ∧ (w.target ≠ some session ∨ w.codec ≠ some head.codec)) ∨
        (w'.line.frames = w.line.frames ∧ (w'.gated = true ∨ w'.line.closed = true)) ∨
        (w.target = some session ∧ w.codec = some head.codec ∧
          (head.key = true ∨ w.gated = false) ∧ w.line.closed = false ∧
          w'.line.frames = w.line.frames ++ [(n, frame)])) := by
  subst hw'
  unfold Watch.pass
  split
  · next hother => exact ⟨rfl, rfl, .inl ⟨rfl, hother⟩⟩
  next hsame =>
  obtain ⟨ht, hc⟩ := not_or.mp hsame
  split
  · exact ⟨rfl, rfl, .inr (.inl ⟨rfl, .inl rfl⟩)⟩
  split
  · next hg => exact ⟨rfl, rfl, .inr (.inl ⟨rfl, .inl (Bool.and_eq_true_iff.mp hg).1⟩)⟩
  next hg =>
  split
  · exact ⟨rfl, rfl, .inr (.inl ⟨rfl, .inl rfl⟩)⟩
  split
  · next line hsent =>
    unfold WatchLine.trySend at hsent
    split at hsent
    · cases hsent
    · next hclosed =>
      split at hsent
      · cases hsent
      · cases hsent
        refine ⟨rfl, rfl, .inr (.inr ⟨not_not.mp ht, not_not.mp hc, ?_, ?_, rfl⟩)⟩
        · cases hkey : head.key with
          | true => exact .inl rfl
          | false =>
            rw [hkey, Bool.not_false, Bool.and_true] at hg
            exact .inr (Bool.not_eq_true _ ▸ hg)
        · exact Bool.not_eq_true _ ▸ hclosed
  · exact ⟨rfl, rfl, .inr (.inl ⟨rfl, .inl rfl⟩)⟩
  · next hsent =>
    unfold WatchLine.trySend at hsent
    split at hsent
    · next hclosed => exact ⟨rfl, rfl, .inr (.inl ⟨rfl, .inr hclosed⟩)⟩
    · split at hsent
      · cases hsent
      · cases hsent

theorem WatchLine.Decodable.skip {line : WatchLine} {handed : List Handed}
    (h : line.Decodable handed) (a : Handed) : line.Decodable (handed ++ [a]) := by
  refine ⟨fun e he => ?_, h.playable.skip⟩
  obtain ⟨c, hc, hread⟩ := h.read e he
  exact ⟨c, by rw [List.getElem?_append_left (List.getElem?_eq_some_iff.mp hc).1]; exact hc, hread⟩

/-- A frame that is not of what a watcher is shown goes past it. -/
theorem Board.Fed.hand {w : Watch} (h : b.Fed w) (a : Handed)
    (ha : ∀ t share codec, w.target = some t → b.shares[t]? = some share →
      w.codec = some codec → w.gated = false → a.encoder ≠ (t, share.socket, codec)) :
    (b.hand a).Fed w := by
  refine ⟨h.made, h.line.skip a, fun t share codec ht hs hc hg hcl => ?_⟩
  exact (h.ready t share codec ht hs hc hg hcl).skip (ha t share codec ht hs hc hg)

/-- A frame past one watcher of the share it came from. -/
theorem fed_pass {w : Watch} (h : b.Fed w) {session : SessionId} {share : Share β}
    {head : ScreenFrameHead} {frame : List UInt8} (hs : b.shares[session]? = some share)
    (hread : ScreenFrameHead.read frame = some head) (isOver : Bool) :
    (b.hand ⟨session, share.socket, head⟩).Fed
      (w.pass session head isOver b.handed.length frame).1 := by
  let a : Handed := ⟨session, share.socket, head⟩
  obtain ⟨ht', hc', hcases⟩ := pass_cases w session head isOver b.handed.length frame rfl
  have hmade : ∀ codec, (w.pass session head isOver b.handed.length frame).1.codec = some codec →
      ∃ t s, (w.pass session head isOver b.handed.length frame).1.target = some t ∧
        b.shares[t]? = some s ∧ codec ∈ s.wanted := by
    rw [ht', hc']
    exact h.made
  rcases hcases with ⟨he, hother⟩ | ⟨hframes, hheld⟩ | ⟨ht, hc, hkey, hopen, hframes⟩
  · rw [he]
    refine h.hand a fun t s codec ht _ hc _ heq => ?_
    simp only [a, Handed.encoder, Prod.mk.injEq] at heq
    obtain ⟨hsession, -, hcodec⟩ := heq
    rcases hother with hne | hne
    · exact hne (hsession ▸ ht)
    · exact hne (hcodec ▸ hc)
  · have hline := h.line.skip a
    refine ⟨hmade, ⟨?_, ?_⟩, fun t s codec _ _ _ hg hcl => ?_⟩
    · rw [hframes]
      exact hline.read
    · rw [WatchLine.numbers, hframes]
      exact hline.playable
    · rcases hheld with hgated | hclosed
      · rw [hg] at hgated
        cases hgated
      · rw [hcl] at hclosed
        cases hclosed
  · have hready : a.key = true ∨
        Ready Handed.encoder Handed.key b.handed w.line.numbers a.encoder :=
      hkey.imp id fun hg => h.ready session share head.codec ht hs hc hg hopen
    have hnumbers : (w.pass session head isOver b.handed.length frame).1.line.numbers =
        w.line.numbers ++ [b.handed.length] := by
      rw [WatchLine.numbers, hframes, List.map_append]
      rfl
    refine ⟨hmade, ⟨fun e he => ?_, ?_⟩, fun t s codec ht₁ hs₁ hc₁ _ _ => ?_⟩
    · rw [hframes] at he
      rcases List.mem_append.mp he with he | he
      · exact (h.line.skip a).read e he
      · rw [List.mem_singleton.mp he]
        exact ⟨a, List.getElem?_concat_length, hread⟩
    · rw [hnumbers]
      exact h.line.playable.put hready
    · rw [ht', ht] at ht₁
      rw [hc', hc] at hc₁
      cases ht₁
      cases hc₁
      have hs₁ : b.shares[session]? = some s := hs₁
      rw [hs] at hs₁
      cases hs₁
      rw [hnumbers]
      exact Ready.put hready

theorem fed_frameAt (C : Ceiling β) (h : b.AllFed) (session : SessionId) (socket : ℕ)
    (frame : List UInt8) (now : ℕ) : (b.frameAt C session socket frame now).1.AllFed := by
  rcases frameAt_cases C b session socket frame now with
    he | ⟨head, hread, ⟨he, hunwanted⟩ | ⟨share, share', isOver, hs, rfl, hsame, he⟩⟩
  · rw [he]
    exact h
  · -- a frame the board drops is none its watchers are shown: they are shown what is wanted
    rw [he]
    intro s w hw
    refine (h s w hw).hand _ fun t share codec ht hshare hc _ heq => ?_
    simp only [Handed.encoder, Prod.mk.injEq] at heq
    obtain ⟨rfl, hsocket, rfl⟩ := heq
    obtain ⟨u, s', hu, hs', hm⟩ := (h s w hw).made head.codec hc
    cases Option.some.inj (hu.symm.trans ht)
    rw [hshare] at hs'
    cases hs'
    exact hunwanted share hshare hsocket.symm hm
  · rw [he]
    have hput : (b.hand ⟨session, share.socket, head⟩).shares[session]? = some share := hs
    have hpassed : ((b.hand ⟨session, share.socket, head⟩).passAll session head isOver
        b.handed.length frame).AllFed := by
      intro s w' hw'
      have hw' : (b.watches.map fun _ w =>
          (w.pass session head isOver b.handed.length frame).1)[s]? = some w' := hw'
      rw [Std.ExtTreeMap.getElem?_map, Option.map_eq_some_iff] at hw'
      obtain ⟨w, hw, rfl⟩ := hw'
      exact (fed_pass (h s w hw) hs hread isOver).goes (Goes.of_eq rfl rfl)
    exact hpassed.goes (goes_putShare hput hsame.socket hsame.wanted) rfl

theorem fed_step (C : Ceiling β) {st st' : Seated β} {a : Act} (h : st.board.AllFed)
    (hstep : step C st a = some st') : st'.board.AllFed := by
  cases a with
  | share session room encode sound now =>
    cases hstep
    exact fed_share C h session room encode sound now
  | unshare session socket =>
    cases hstep
    exact fed_unshare h session socket
  | watch session room target decode sound now =>
    cases hstep
    exact fed_watch h session room target decode sound now
  | switch session socket target decode now =>
    cases hstep
    exact fed_switch h session socket target decode now
  | unwatch session socket now =>
    cases hstep
    exact fed_unwatch h session socket now
  | keyframe session socket now =>
    cases hstep
    exact fed_keyframe h session socket now
  | hear session socket on =>
    cases hstep
    exact fed_hear h session socket on
  | sound session socket packet now =>
    cases hstep
    exact fed_soundAt C h session socket packet now
  | frame session socket frame now =>
    cases hstep
    exact fed_frameAt C h session socket frame now
  | leave session now =>
    cases hstep
    exact fed_leave h session now
  | drain session d =>
    cases hstep
    exact fed_drain h session d
  | moves session room now =>
    cases hstep
    exact fed_leave h session now

/-- In every state of every run: the frames on a watcher's line are frames the board
was handed, in that order, and before each ordinary one stands a key frame out of the
same encoder, with everything the board was handed of that encoder since the last of
those on the line too. -/
theorem frames_decodable (C : Ceiling β) {st : Seated β} (hr : (machine C).Reachable st)
    (s : SessionId) (w : Watch) (hw : st.board.watches[s]? = some w) :
    w.line.Decodable st.board.handed := by
  have hstart : (Board.empty : Board β).AllFed := fun s w hw => by
    cases Std.ExtTreeMap.getElem?_empty.symm.trans hw
  have h : st.board.AllFed := (machine C).invariant (I := fun st => st.board.AllFed) hstart
    (fun _ _ _ h hl => fed_step C h hl) hr
  exact (h s w hw).line

/-- A frame in the format the one watcher plays. -/
def frameOf (key : Bool) : List UInt8 :=
  [1, 2, if key then 1 else 0, 0, 0, 0, 0, 0, 0, 0, 0, 0, 9]

/-- An ordinary frame before the key frame goes nowhere; after it, it does. -/
theorem frames_decodable_afterKey :
    ∃ st w, (machine bucket).run (oneWatcher ++ [.frame 1 1 (frameOf false) 2,
        .frame 1 1 (frameOf true) 3, .frame 1 1 (frameOf false) 4]) = some st ∧
      st.board.watches[2]? = some w ∧ w.line.Decodable st.board.handed ∧
      w.line.numbers = [1, 2] := by
  have hruns : ∃ st w, (machine bucket).run (oneWatcher ++ [.frame 1 1 (frameOf false) 2,
        .frame 1 1 (frameOf true) 3, .frame 1 1 (frameOf false) 4]) = some st ∧
      st.board.watches[2]? = some w ∧ w.line.numbers = [1, 2] := ⟨_, _, rfl, rfl, rfl⟩
  obtain ⟨st, w, hr, hw, hnumbers⟩ := hruns
  exact ⟨st, w, hr, hw, frames_decodable bucket ⟨_, hr⟩ 2 w hw, hnumbers⟩

end Linger.Screens
