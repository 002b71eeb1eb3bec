import Linger.ScreensShowing

/-! In which room, and by which socket, a session shares or watches: what each
operation of the board does to that, and all that it does to it. -/
namespace Linger.Screens
open FiniteMap

variable {β : Type} {b b' : Board β}

/-- The two halves of the board. -/
inductive Part
  | share | watch
  deriving DecidableEq, Repr

structure Place where
  room : RoomId
  socket : ℕ
  deriving DecidableEq, Repr

def Share.place (share : Share β) : Place := ⟨share.room, share.socket⟩

def Watch.place (w : Watch) : Place := ⟨w.room, w.socket⟩

def Board.place (b : Board β) : Part → SessionId → Option Place
  | .share, session => (b.shares[session]?).map Share.place
  | .watch, session => (b.watches[session]?).map Watch.place

/-- Everybody where they were, and no socket's number taken back. -/
structure Stays (b b' : Board β) : Prop where
  place : ∀ part session, b'.place part session = b.place part session
  sockets : b.sockets ≤ b'.sockets

theorem Stays.refl (b : Board β) : Stays b b := ⟨fun _ _ => rfl, Nat.le_refl _⟩

theorem Stays.trans {b₁ b₂ b₃ : Board β} (h : Stays b₁ b₂) (h' : Stays b₂ b₃) : Stays b₁ b₃ :=
  ⟨fun part s => (h'.place part s).trans (h.place part s), h.sockets.trans h'.sockets⟩

theorem Alike.stays (h : Alike b b') : Stays b b' := by
  refine ⟨fun part s => ?_, h.sockets⟩
  cases part with
  | share =>
    show (b'.shares[s]?).map Share.place = (b.shares[s]?).map Share.place
    cases hs : b'.shares[s]? with
    | none =>
      have hkept := h.kept s
      rw [hs, Option.isSome_none, eq_comm, Option.isSome_eq_false_iff,
        Option.isNone_iff_eq_none] at hkept
      rw [hkept]
    | some share' =>
      obtain ⟨share, hshare, hsame⟩ := h.shares s share' hs
      rw [hshare, Option.map_some, Option.map_some, Share.place, Share.place, hsame.room,
        hsame.socket]
  | watch =>
    show (b'.watches[s]?).map Watch.place = (b.watches[s]?).map Watch.place
    have hw := congrArg (Option.map fun c => Place.mk c.1 c.2.2.2.2.2.1) (h.watches s)
    rw [Option.map_map, Option.map_map] at hw
    exact hw

theorem stays_settle (b : Board β) (t : SessionId) (now : ℕ) : Stays b (b.settle t now) := by
  cases hb : b.shares[t]? with
  | none =>
    rw [Board.settle_of_none hb]
    exact Stays.refl b
  | some share =>
    obtain ⟨hw, hsockets, -, share', hshares, hroom, -, -, hsocket, -⟩ :=
      Board.settle_of_some hb now
    refine ⟨fun part s => ?_, hsockets.ge⟩
    cases part with
    | share =>
      show ((b.settle t now).shares[s]?).map Share.place = (b.shares[s]?).map Share.place
      rw [hshares, insert_at]
      split
      · next he =>
        rw [he, hb, Option.map_some, Option.map_some, Share.place, Share.place, hroom, hsocket]
      · rfl
    | watch =>
      show ((b.settle t now).watches[s]?).map Watch.place = (b.watches[s]?).map Watch.place
      rw [hw, Std.ExtTreeMap.getElem?_map, Option.map_map]
      refine congrArg (fun f => Option.map f b.watches[s]?) (funext fun w => ?_)
      show (b.settled t share.encode w).place = w.place
      unfold Board.settled Watch.given
      split
      · split <;> rfl
      · rfl

theorem stays_settleFor (b : Board β) (target : Option SessionId) (now : ℕ) :
    Stays b (b.settleFor target now) := by
  unfold Board.settleFor
  split
  · exact stays_settle b _ now
  · exact Stays.refl b

theorem stays_settleBefore (b : Board β) (before : Option SessionId) (target : SessionId)
    (now : ℕ) : Stays b (b.settleBefore before target now) := by
  unfold Board.settleBefore
  split
  · exact stays_settle b _ now
  · exact Stays.refl b

theorem place_putWatch (b : Board β) (session : SessionId) (w : Watch) (part : Part)
    (s : SessionId) : (b.putWatch session w).place part s =
      if part = .watch ∧ s = session then some w.place else b.place part s := by
  cases part with
  | share => rfl
  | watch =>
    show ((b.watches.insert session w)[s]?).map Watch.place = _
    rw [insert_at]
    by_cases hs : s = session
    · rw [if_pos hs, if_pos ⟨rfl, hs⟩]
      rfl
    · rw [if_neg hs, if_neg fun h => hs h.2]
      rfl

theorem stays_putWatch {session : SessionId} {w w' : Watch} (hw : b.watches[session]? = some w)
    (hp : w'.place = w.place) : Stays b (b.putWatch session w') := by
  refine ⟨fun part s => ?_, Nat.le_refl _⟩
  rw [place_putWatch]
  split
  · next he =>
    rw [he.1, he.2, hp]
    show _ = (b.watches[session]?).map Watch.place
    rw [hw, Option.map_some]
  · rfl

theorem stays_tellUnplayable (b : Board β) (session target : SessionId) :
    Stays b (b.tellUnplayable session target) := by
  unfold Board.tellUnplayable
  split
  · exact Stays.refl b
  · next w hw =>
    split
    · exact stays_putWatch hw rfl
    · exact Stays.refl b

theorem stays_eachWatcher (b : Board β) (session : SessionId) {f : Watch → Watch}
    (hf : ∀ w, (f w).place = w.place) : Stays b (b.eachWatcher session f) := by
  refine ⟨fun part s => ?_, Nat.le_refl _⟩
  cases part with
  | share => rfl
  | watch =>
    show ((b.eachWatcher session f).watches[s]?).map Watch.place = _
    rw [eachWatcher_at, Option.map_map]
    refine congrArg (fun f => Option.map f b.watches[s]?) (funext fun w => ?_)
    rw [Function.comp_apply]
    split
    · exact hf w
    · rfl

theorem place_turnTo (b : Board β) (session : SessionId) (w : Watch) (before : Option SessionId)
    (target : SessionId) (now : ℕ) (part : Part) (s : SessionId) :
    (b.turnTo session w before target now).place part s =
      if part = .watch ∧ s = session then some w.place else b.place part s := by
  have hstays := ((stays_settleBefore (b.putWatch session w) before target now).trans
    (stays_settle _ target now)).trans (stays_tellUnplayable _ session target)
  exact (hstays.place part s).trans (place_putWatch b session w part s)

theorem sockets_turnTo (b : Board β) (session : SessionId) (w : Watch) (before : Option SessionId)
    (target : SessionId) (now : ℕ) : b.sockets ≤ (b.turnTo session w before target now).sockets :=
  (((stays_settleBefore (b.putWatch session w) before target now).trans
    (stays_settle _ target now)).trans (stays_tellUnplayable _ session target)).sockets

/-- A place that a socket takes on the board under a number of its own. -/
structure Takes (b : Board β) (part : Part) (session : SessionId) (room : RoomId) (socket : ℕ)
    (b' : Board β) : Prop where
  place : ∀ part' s, b'.place part' s =
    if part' = part ∧ s = session then some ⟨room, socket⟩ else b.place part' s
  unused : b.sockets < socket
  sockets : socket ≤ b'.sockets

theorem takes_share (C : Ceiling β) {session : SessionId} {room : RoomId}
    {encode : List ScreenCodec} {sound : Bool} {now socket : ℕ}
    (hok : (b.share C session room encode sound now).2 = .ok socket) :
    Takes b .share session room socket (b.share C session room encode sound now).1 := by
  have hroom : b.othersIn session room < maxScreensPerRoom := by
    by_contra hfull
    rw [Board.share, if_pos (Nat.not_lt.mp hfull)] at hok
    cases hok
  obtain ⟨b₀, share, hstarts, hr, -, -, he⟩ := share_eq C b encode sound now hroom
  have hsocket : socket = b.sockets + 1 := by
    rw [Board.share, if_neg (Nat.not_le.mpr hroom)] at hok
    cases hok
    rfl
  have hstays := stays_settle b₀ session now
  refine ⟨fun part s => ?_, by omega, ?_⟩
  · rw [he, hstays.place]
    cases part with
    | share =>
      show (b₀.shares[s]?).map Share.place = _
      rw [hstarts.shares]
      by_cases hs : s = session
      · rw [if_pos hs, if_pos ⟨rfl, hs⟩, Option.map_some, Share.place, hr, hstarts.socket, hsocket]
      · rw [if_neg hs, if_neg fun h => hs h.2]
        rfl
    | watch =>
      show (b₀.watches[s]?).map Watch.place = (b.watches[s]?).map Watch.place
      rw [hstarts.watches, Option.map_map]
      refine congrArg (fun f => Option.map f b.watches[s]?) (funext fun w => ?_)
      rw [Function.comp_apply]
      split <;> rfl
  · have hkept := hstays.sockets
    rw [hstarts.sockets] at hkept
    rw [he]
    omega

theorem takes_watch {session : SessionId} {room : RoomId} {target : SessionId}
    {decode : List ScreenCodec} {sound : Bool} {now socket : ℕ}
    (hok : (b.watch session room target decode sound now).2 = .ok socket) :
    Takes b .watch session room socket (b.watch session room target decode sound now).1 := by
  unfold Board.watch at hok ⊢
  split at hok
  · cases hok
  · next hcan =>
    rw [if_neg hcan]
    cases hok
    let old := (b.watches[session]?).map Watch.socket
    obtain ⟨hs, hw⟩ := closeReplaced_keeps b.nextSocket.1 old
    obtain ⟨hn, -⟩ := closeReplaced_sockets b.nextSocket.1 old
    refine ⟨fun part s => ?_, Nat.lt_succ_self _, ?_⟩
    · refine (place_turnTo _ session _ _ target now part s).trans ?_
      split
      · rfl
      · cases part with
        | share => exact congrArg (fun m : FMap SessionId (Share β) => (m[s]?).map Share.place) hs
        | watch => exact congrArg (fun m : FMap SessionId Watch => (m[s]?).map Watch.place) hw
    · refine Nat.le_trans (Nat.le_of_eq ?_) (sockets_turnTo _ session _ _ target now)
      exact hn.symm

theorem share_refused (C : Ceiling β) {session : SessionId} {room : RoomId}
    {encode : List ScreenCodec} {sound : Bool} {now : ℕ} {why : Closing}
    (h : (b.share C session room encode sound now).2 = .error why) :
    (b.share C session room encode sound now).1 = b := by
  unfold Board.share at h ⊢
  split at h
  · next hfull => rw [if_pos hfull]
  · cases h

theorem watch_refused {session : SessionId} {room : RoomId} {target : SessionId}
    {decode : List ScreenCodec} {sound : Bool} {now : ℕ} {why : Closing}
    (h : (b.watch session room target decode sound now).2 = .error why) :
    (b.watch session room target decode sound now).1 = b := by
  unfold Board.watch at h ⊢
  split at h
  · next hcan => rw [if_pos hcan]
  · cases h

/-- The places some of which are given up, and nobody else's. -/
structure Frees (b : Board β) (gone : Part → SessionId → Place → Prop) (b' : Board β) : Prop where
  place : ∀ part s place, b'.place part s = some place ↔
    b.place part s = some place ∧ ¬gone part s place
  sockets : b.sockets ≤ b'.sockets

theorem Frees.stays {gone : Part → SessionId → Place → Prop} {b₁ : Board β} (h : Frees b gone b₁)
    (hs : Stays b₁ b') : Frees b gone b' :=
  ⟨fun part s place => by rw [hs.place]; exact h.place part s place,
    h.sockets.trans hs.sockets⟩

theorem Stays.frees (h : Stays b b') : Frees b (fun _ _ _ => False) b' :=
  ⟨fun part s place => by rw [h.place]; simp, h.sockets⟩

theorem place_eraseShare (b : Board β) (session : SessionId) (part : Part) (s : SessionId) :
    (({ b with shares := b.shares.erase session }).eachWatcher session Watch.lose).place part s =
      if part = .share ∧ s = session then none else b.place part s := by
  have hstays := stays_eachWatcher { b with shares := b.shares.erase session } session
    (f := Watch.lose) fun _ => rfl
  rw [hstays.place]
  cases part with
  | share =>
    show ((b.shares.erase session)[s]?).map Share.place = _
    rw [erase_at]
    by_cases hs : s = session
    · rw [if_pos hs, if_pos ⟨rfl, hs⟩, Option.map_none]
    · rw [if_neg hs, if_neg fun h => hs h.2]
      rfl
  | watch => rfl

theorem place_eraseWatch (b : Board β) (session : SessionId) (part : Part) (s : SessionId) :
    ({ b with watches := b.watches.erase session } : Board β).place part s =
      if part = .watch ∧ s = session then none else b.place part s := by
  cases part with
  | share => rfl
  | watch =>
    show ((b.watches.erase session)[s]?).map Watch.place = _
    rw [erase_at]
    by_cases hs : s = session
    · rw [if_pos hs, if_pos ⟨rfl, hs⟩, Option.map_none]
    · rw [if_neg hs, if_neg fun h => hs h.2]
      rfl

/-- A share socket that closes gives up the share it is for. -/
theorem frees_unshare (b : Board β) (session : SessionId) (socket : ℕ) :
    Frees b (fun part s place => part = .share ∧ s = session ∧ place.socket = socket)
      (b.unshare session socket).1 := by
  have hat : b.place .share session = (b.shares[session]?).map Share.place := rfl
  have hnothing (h : ∀ place, b.place .share session = some place → place.socket ≠ socket) :
      Frees b (fun part s place => part = .share ∧ s = session ∧ place.socket = socket) b := by
    refine ⟨fun part s place => ⟨fun hp => ⟨hp, ?_⟩, And.left⟩, Nat.le_refl _⟩
    rintro ⟨rfl, rfl, hsocket⟩
    exact h place hp hsocket
  unfold Board.unshare
  split
  · next hs =>
    refine hnothing fun place hp => ?_
    rw [hat, hs] at hp
    cases hp
  · next share hs =>
    rw [hs, Option.map_some] at hat
    dsimp only
    split
    · next hne =>
      refine hnothing fun place hp => ?_
      rw [hat] at hp
      cases hp
      exact hne
    · next hsocket =>
      refine ⟨fun part s place => ?_, Nat.le_refl _⟩
      rw [place_eraseShare]
      by_cases hps : part = .share ∧ s = session
      · rw [if_pos hps]
        refine ⟨fun h => (by cases h), fun ⟨hp, hn⟩ => absurd ⟨hps.1, hps.2, ?_⟩ hn⟩
        rw [hps.1, hps.2, hat] at hp
        cases hp
        exact not_not.mp hsocket
      · rw [if_neg hps]
        exact ⟨fun hp => ⟨hp, fun h => hps ⟨h.1, h.2.1⟩⟩, And.left⟩

theorem frees_unwatch (b : Board β) (session : SessionId) (socket now : ℕ) :
    Frees b (fun part s place => part = .watch ∧ s = session ∧ place.socket = socket)
      (b.unwatch session socket now).1 := by
  have hat : b.place .watch session = (b.watches[session]?).map Watch.place := rfl
  unfold Board.unwatch Board.watchOn
  split
  · next hw =>
    refine ⟨fun part s place => ⟨fun hp => ⟨hp, ?_⟩, And.left⟩, Nat.le_refl _⟩
    rintro ⟨rfl, rfl, hsocket⟩
    rw [hat, Option.map_eq_some_iff] at hp
    obtain ⟨w, hw', rfl⟩ := hp
    have hne := Option.filter_eq_none_iff.mp hw w hw'
    exact hne (by simpa [Watch.place] using hsocket)
  · next w hw =>
    obtain ⟨hw, hsocket⟩ := Option.filter_eq_some_iff.mp hw
    rw [hw, Option.map_some] at hat
    have hfrees : Frees b (fun part s place => part = .watch ∧ s = session ∧ place.socket = socket)
        { b with watches := b.watches.erase session } := by
      refine ⟨fun part s place => ?_, Nat.le_refl _⟩
      rw [place_eraseWatch]
      by_cases hps : part = .watch ∧ s = session
      · rw [if_pos hps]
        refine ⟨fun h => (by cases h), fun ⟨hp, hn⟩ => absurd ⟨hps.1, hps.2, ?_⟩ hn⟩
        rw [hps.1, hps.2, hat] at hp
        cases hp
        simpa [Watch.place] using hsocket
      · rw [if_neg hps]
        exact ⟨fun hp => ⟨hp, fun h => hps ⟨h.1, h.2.1⟩⟩, And.left⟩
    exact hfrees.stays (stays_settleFor _ w.target now)

/-- Whoever leaves gives up both places. -/
theorem frees_leave (b : Board β) (session : SessionId) (now : ℕ) :
    Frees b (fun _ s _ => s = session) (b.leave session now).1 := by
  have hgone : ∀ part, (b.leave session now).1.place part session = none := by
    obtain ⟨hs, hw⟩ := leave_gone b session now
    intro part
    cases part with
    | share => exact congrArg (Option.map Share.place) hs
    | watch => exact congrArg (Option.map Watch.place) hw
  have hothers : (∀ part s, s ≠ session →
      (b.leave session now).1.place part s = b.place part s) ∧
      b.sockets ≤ (b.leave session now).1.sockets := by
    let kept (b' : Board β) : Prop :=
      (∀ part s, s ≠ session → b'.place part s = b.place part s) ∧ b.sockets ≤ b'.sockets
    apply leave_rule (P := kept) (Q := kept) b session now
    · exact fun _ => ⟨fun _ _ _ => rfl, Nat.le_refl _⟩
    · intro share _
      have hclosed := (alike_close (({ b with shares := b.shares.erase session }).eachWatcher
        session Watch.lose) share.socket .ended).stays
      refine ⟨fun part s hne => (hclosed.place part s).trans ?_, hclosed.sockets⟩
      rw [place_eraseShare, if_neg fun h => hne h.2]
    · exact fun _ h _ => h
    · intro b' w h _
      have hstays := (alike_close { b' with watches := b'.watches.erase session } w.socket
        .ended).stays.trans (stays_settleFor _ w.target now)
      refine ⟨fun part s hne => (hstays.place part s).trans ?_, h.2.trans hstays.sockets⟩
      rw [place_eraseWatch, if_neg fun h => hne h.2]
      exact h.1 part s hne
  refine ⟨fun part s place => ?_, hothers.2⟩
  by_cases hs : s = session
  · rw [hs, hgone]
    exact ⟨fun h => (by cases h), fun h => absurd rfl h.2⟩
  · rw [hothers.1 part s hs]
    exact ⟨fun h => ⟨h, hs⟩, And.left⟩

theorem stays_switch (b : Board β) (session : SessionId) (socket : ℕ) (target : SessionId)
    (decode : Option (List ScreenCodec)) (now : ℕ) :
    Stays b (b.switch session socket target decode now).1 := by
  unfold Board.switch Board.watchOn
  split
  · exact Stays.refl b
  · next w hw =>
    have hw := (Option.filter_eq_some_iff.mp hw).1
    dsimp only
    split
    · refine ⟨fun part s => ?_, sockets_turnTo _ session _ _ target now⟩
      rw [place_turnTo]
      split
      · next he =>
        rw [he.1, he.2]
        show _ = (b.watches[session]?).map Watch.place
        rw [hw]
        rfl
      · rfl
    · refine Stays.trans ?_ (stays_settleBefore _ w.target target now)
      exact stays_putWatch hw rfl

theorem stays_hear (b : Board β) (session : SessionId) (socket : ℕ) (on : Bool) :
    Stays b (b.hear session socket on) := by
  rcases hear_cases b session socket on with he | ⟨w, hw, hrest⟩
  · rw [he]
    exact Stays.refl b
  · have hput : Stays b (b.putWatch session { w with sound := on }) := stays_putWatch hw rfl
    rcases hrest with he | ⟨t, share, hs, he⟩
    · rw [he]
      exact hput
    · rw [he]
      refine hput.trans ⟨fun part s => ?_, Nat.le_refl _⟩
      cases part with
      | share =>
        show (((b.putWatch session { w with sound := on }).putShare t _).shares[s]?).map
          Share.place = _
        rw [Board.putShare_at]
        split
        · next he =>
          rw [he]
          exact (congrArg (Option.map Share.place) hs).symm
        · rfl
      | watch => rfl

end Linger.Screens
