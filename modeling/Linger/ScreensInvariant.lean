import Linger.ScreensOrder

/-! The board while every share and watch is started in its session's room, and
everybody who changes rooms leaves it first. -/
namespace Linger.Screens
open FiniteMap StepMachine

variable {β : Type} {b b' : Board β} {seats : FMap SessionId RoomId}

/-- The sessions that share in a room. -/
def Board.sharers (b : Board β) (room : RoomId) : List SessionId :=
  (b.shares.toList.filter fun e => e.2.room = room).map Prod.fst

theorem Board.mem_sharers (b : Board β) (room : RoomId) (s : SessionId) :
    s ∈ b.sharers room ↔ ∃ share, b.shares[s]? = some share ∧ share.room = room := by
  simp [sharers, mem_keys]

theorem Board.sharers_length_le {room : RoomId} {l : List SessionId}
    (h : ∀ s ∈ b.sharers room, s ∈ l) : (b.sharers room).length ≤ l.length :=
  (List.subperm_of_subset (nodup_keys b.shares _) h).length_le

/-- Everybody on the board is in their room, watches another who shares there,
and no room has more shares than it may. -/
structure Rooms (b : Board β) (seats : FMap SessionId RoomId) : Prop where
  shares : ∀ (s : SessionId) (share : Share β), b.shares[s]? = some share →
    seats[s]? = some share.room
  watches : ∀ (s : SessionId) (w : Watch), b.watches[s]? = some w → seats[s]? = some w.room
  targets : ∀ (s : SessionId) (w : Watch) (t : SessionId), b.watches[s]? = some w →
    w.target = some t → t ≠ s ∧ ∃ share, b.shares[t]? = some share ∧ share.room = w.room
  full : ∀ room, (b.sharers room).length ≤ maxScreensPerRoom

/-- Fewer shares and watches, in the rooms they were in, each watch of the same
share as long as that is there. -/
structure Shrinks (b b' : Board β) : Prop where
  shares : ∀ (s : SessionId) (share' : Share β), b'.shares[s]? = some share' →
    ∃ share, b.shares[s]? = some share ∧ share'.room = share.room
  watches : ∀ (s : SessionId) (w' : Watch), b'.watches[s]? = some w' →
    ∃ w, b.watches[s]? = some w ∧ w'.room = w.room ∧ ∀ t, w'.target = some t →
      w.target = some t ∧ ((b.shares[t]?).isSome → (b'.shares[t]?).isSome)

theorem Rooms.shrink (h : Rooms b seats) (hs : Shrinks b b') : Rooms b' seats := by
  refine ⟨fun s share' hs' => ?_, fun s w' hw' => ?_, fun s w' t hw' ht' => ?_, fun room => ?_⟩
  · obtain ⟨share, hshare, hroom⟩ := hs.shares s share' hs'
    rw [hroom]
    exact h.shares s share hshare
  · obtain ⟨w, hw, hroom, -⟩ := hs.watches s w' hw'
    rw [hroom]
    exact h.watches s w hw
  · obtain ⟨w, hw, hroom, htarget⟩ := hs.watches s w' hw'
    obtain ⟨ht, hkept⟩ := htarget t ht'
    obtain ⟨hne, share, hshare, hsame⟩ := h.targets s w t hw ht
    obtain ⟨share', hshare'⟩ := Option.isSome_iff_exists.mp (hkept (by rw [hshare]; rfl))
    obtain ⟨share₀, hshare₀, hroom'⟩ := hs.shares t share' hshare'
    rw [hshare] at hshare₀
    cases hshare₀
    exact ⟨hne, share', hshare', by rw [hroom', hsame, hroom]⟩
  · refine (Board.sharers_length_le fun s hm => ?_).trans (h.full room)
    obtain ⟨share', hshare', hroom⟩ := (b'.mem_sharers room s).mp hm
    obtain ⟨share, hshare, hsame⟩ := hs.shares s share' hshare'
    exact (b.mem_sharers room s).mpr ⟨share, hshare, hsame.symm.trans hroom⟩

theorem Shrinks.refl (b : Board β) : Shrinks b b :=
  ⟨fun _ share h => ⟨share, h, rfl⟩, fun _ w h => ⟨w, h, rfl, fun _ ht => ⟨ht, id⟩⟩⟩

theorem Alike.shrinks (h : Alike b b') : Shrinks b b' := by
  refine ⟨fun s share' hs' => ?_, fun s w' hw' => ?_⟩
  · obtain ⟨share, hs, hsame⟩ := h.shares s share' hs'
    exact ⟨share, hs, hsame.room⟩
  · have hw := h.watches s
    rw [hw', Option.map_some, eq_comm, Option.map_eq_some_iff] at hw
    obtain ⟨w, hw, hc⟩ := hw
    simp only [Watch.core, Prod.mk.injEq] at hc
    exact ⟨w, hw, hc.1.symm, fun t ht => ⟨by rw [hc.2.1, ht], fun hk => by rw [h.kept]; exact hk⟩⟩

theorem shrinks_settle (b : Board β) (t : SessionId) (now : ℕ) : Shrinks b (b.settle t now) := by
  cases hb : b.shares[t]? with
  | none =>
    rw [Board.settle_of_none hb]
    exact Shrinks.refl b
  | some share =>
    obtain ⟨hw, -, -, share', hshares, hroom, -⟩ := Board.settle_of_some hb now
    refine ⟨fun s s' hs' => ?_, fun s w' hw' => ?_⟩
    · rw [hshares, insert_at] at hs'
      split at hs'
      · next he =>
        cases hs'
        exact ⟨share, he ▸ hb, hroom⟩
      · exact ⟨s', hs', rfl⟩
    · rw [hw, Std.ExtTreeMap.getElem?_map, Option.map_eq_some_iff] at hw'
      obtain ⟨w, hw', rfl⟩ := hw'
      have hr : (b.settled t share.encode w).room = w.room := by
        unfold Board.settled Watch.given
        split
        · split <;> rfl
        · rfl
      refine ⟨w, hw', hr, fun u hu => ⟨?_, fun hk => ?_⟩⟩
      · rw [← hu, (Board.settled_sound b t share.encode w).2]
      · rw [hshares, insert_at]
        split
        · rfl
        · exact hk

/-- A share that ends leaves its watchers with nothing to show. -/
theorem shrinks_lose (b : Board β) (session : SessionId) :
    Shrinks b (({ b with shares := b.shares.erase session }).eachWatcher session Watch.lose) := by
  refine ⟨fun s share hs => ?_, fun s w' hw' => ?_⟩
  · have hs : (b.shares.erase session)[s]? = some share := hs
    rw [erase_at] at hs
    split at hs
    · cases hs
    · exact ⟨share, hs, rfl⟩
  · have hw' : (b.watches.map fun _ w => if w.target = some session then w.lose else w)[s]? =
        some w' := hw'
    rw [Std.ExtTreeMap.getElem?_map, Option.map_eq_some_iff] at hw'
    obtain ⟨w, hw, rfl⟩ := hw'
    by_cases ht : w.target = some session
    · rw [if_pos ht]
      exact ⟨w, hw, rfl, fun t hn => by cases hn⟩
    · rw [if_neg ht]
      refine ⟨w, hw, rfl, fun t hn => ⟨hn, fun hk => ?_⟩⟩
      show ((b.shares.erase session)[t]?).isSome
      rw [erase_at, if_neg fun he : t = session => ht (he ▸ hn)]
      exact hk

theorem shrinks_eraseWatch (b : Board β) (session : SessionId) :
    Shrinks b { b with watches := b.watches.erase session } := by
  refine ⟨fun s share hs => ⟨share, hs, rfl⟩, fun s w hw => ?_⟩
  have hw : (b.watches.erase session)[s]? = some w := hw
  rw [erase_at] at hw
  split at hw
  · cases hw
  · exact ⟨w, hw, rfl, fun t ht => ⟨ht, id⟩⟩

/-- Both halves of the invariant. -/
structure Inv (b : Board β) (seats : FMap SessionId RoomId) : Prop where
  rooms : Rooms b seats
  ordered : b.OrderedBut fun _ => False

theorem Inv.alike (h : Inv b seats) (ha : Alike b b') : Inv b' seats :=
  ⟨h.rooms.shrink ha.shrinks, h.ordered.alike ha⟩

/-- Settling what is late puts the board in order. -/
theorem inv_settle {late : SessionId → Prop} (hr : Rooms b seats) (ho : b.OrderedBut late)
    (t : SessionId) (now : ℕ) (hlate : ∀ s, late s → s = t) : Inv (b.settle t now) seats :=
  ⟨hr.shrink (shrinks_settle b t now),
    (Board.settle_ordered ho t now).mono fun s hs => hs.2 (hlate s hs.1)⟩

theorem inv_settleFor (hr : Rooms b seats) (target : Option SessionId) (now : ℕ)
    (ho : b.OrderedBut fun s => target = some s) : Inv (b.settleFor target now) seats := by
  unfold Board.settleFor
  cases target with
  | none => exact ⟨hr, ho.mono fun s hs => by cases hs⟩
  | some t => exact inv_settle hr ho t now fun s hs => (Option.some.inj hs).symm

/-- A share that ends, its watchers told so, puts no other out of order. -/
theorem inv_lose (h : Inv b seats) (session : SessionId) :
    Inv (({ b with shares := b.shares.erase session }).eachWatcher session Watch.lose) seats := by
  refine ⟨h.rooms.shrink (shrinks_lose b session), h.ordered.change ?_ ?_ ?_⟩
  · intro t share hs
    have hs : (b.shares.erase session)[t]? = some share := hs
    rw [erase_at] at hs
    split at hs
    · cases hs
    · exact h.ordered.told t share hs
  · intro t share hs _
    have hs : (b.shares.erase session)[t]? = some share := hs
    rw [erase_at] at hs
    split at hs
    · cases hs
    · exact hs
  · intro t _ hsome s
    have hne : t ≠ session := by
      rintro rfl
      have hsome : ((b.shares.erase t)[t]?).isSome := hsome
      rw [erase_at, if_pos rfl] at hsome
      cases hsome
    show ((b.watches.map fun _ w => if w.target = some session then w.lose else w)[s]?).bind _ = _
    rw [Std.ExtTreeMap.getElem?_map]
    cases b.watches[s]? with
    | none => rfl
    | some w =>
      rw [Option.map_some, Option.bind_some, Option.bind_some]
      by_cases ht : w.target = some session
      · have hother : ¬w.target = some t := fun he => hne (Option.some.inj (he.symm.trans ht))
        have hlost : ¬w.lose.target = some t := by simp [Watch.lose, Watch.tell]
        rw [if_pos ht, Board.view_other hother, Board.view_other hlost]
      · rw [if_neg ht]

theorem inv_unshare (h : Inv b seats) (session : SessionId) (socket : ℕ) :
    Inv (b.unshare session socket).1 seats := by
  unfold Board.unshare
  split
  · exact h
  · dsimp only
    split
    · exact h
    · exact inv_lose h session

/-- A watch that ends puts at most what it watched out of order. -/
theorem ordered_eraseWatch (h : b.OrderedBut fun _ => False) {session : SessionId} {w : Watch}
    (hw : b.watches[session]? = some w) :
    ({ b with watches := b.watches.erase session } : Board β).OrderedBut
      fun s => w.target = some s := by
  refine h.change h.told (fun t share hs _ => hs) fun t hn _ s => ?_
  show ((b.watches.erase session)[s]?).bind _ = _
  rw [erase_at]
  split
  · next he => rw [he, hw, Option.bind_none, Option.bind_some, Board.view_other hn]
  · rfl

theorem inv_unwatch (h : Inv b seats) (session : SessionId) (socket now : ℕ) :
    Inv (b.unwatch session socket now).1 seats := by
  unfold Board.unwatch Board.watchOn
  split
  · exact h
  · next w hw =>
    have hw := (Option.filter_eq_some_iff.mp hw).1
    exact inv_settleFor (h.rooms.shrink (shrinks_eraseWatch b session)) w.target now
      (ordered_eraseWatch h.ordered hw)

/-- Leaving is losing a share, if there is one, and then a watch, if there is one: what the
first makes of a board the second makes something of. -/
theorem leave_rule {P Q : Board β → Prop} (b : Board β) (session : SessionId) (now : ℕ)
    (hstay : b.shares[session]? = none → P b)
    (hlose : ∀ share, b.shares[session]? = some share →
      P ((({ b with shares := b.shares.erase session } : Board β).close share.socket
        .ended).eachWatcher session Watch.lose))
    (hgone : ∀ b', P b' → b'.watches[session]? = none → Q b')
    (hwatch : ∀ b' w, P b' → b'.watches[session]? = some w →
      Q ((({ b' with watches := b'.watches.erase session } : Board β).close w.socket
        .ended).settleFor w.target now)) : Q (b.leave session now).1 := by
  unfold Board.leave
  cases hs : b.shares[session]? with
  | none =>
    have hafter := hstay hs
    dsimp only
    cases hw : b.watches[session]? with
    | none => exact hgone b hafter hw
    | some w => exact hwatch b w hafter hw
  | some share =>
    have hafter := hlose share hs
    dsimp only
    generalize (({ b with shares := b.shares.erase session } : Board β).close share.socket
      .ended).eachWatcher
      session Watch.lose = b' at hafter ⊢
    cases hw : b'.watches[session]? with
    | none => exact hgone b' hafter hw
    | some w => exact hwatch b' w hafter hw

theorem inv_leave (h : Inv b seats) (session : SessionId) (now : ℕ) :
    Inv (b.leave session now).1 seats := by
  apply leave_rule (P := fun b => Inv b seats) (Q := fun b => Inv b seats) b session now
  · exact fun _ => h
  · intro share _
    have hclosed := alike_close (({ b with shares := b.shares.erase session }).eachWatcher session
      Watch.lose) share.socket .ended
    exact (inv_lose h session).alike hclosed
  · exact fun _ h _ => h
  · intro b' w h hw
    have hclosed := alike_close { b' with watches := b'.watches.erase session } w.socket .ended
    exact inv_settleFor ((h.rooms.shrink (shrinks_eraseWatch b' session)).shrink hclosed.shrinks)
      w.target now ((ordered_eraseWatch h.ordered hw).alike hclosed)

/-- A watch put on the board, or changed, puts out of order at most what it
watched and what it watches. -/
theorem ordered_putWatch (h : b.OrderedBut fun _ => False) (session : SessionId) (w' : Watch) :
    (b.putWatch session w').OrderedBut
      fun s => (b.watches[session]?).bind Watch.target = some s ∨ w'.target = some s := by
  refine h.change h.told (fun t share hs _ => hs) fun t hn _ s => ?_
  obtain ⟨hbefore, hnow⟩ := not_or.mp hn
  show ((b.watches.insert session w')[s]?).bind _ = _
  rw [insert_at]
  split
  · next he =>
    rw [he, Option.bind_some, Board.view_other hnow]
    cases hw : b.watches[session]? with
    | none => rfl
    | some w =>
      rw [hw, Option.bind_some] at hbefore
      rw [Option.bind_some, Board.view_other hbefore]
  · rfl

theorem rooms_putWatch (h : Rooms b seats) {session : SessionId} {w : Watch}
    (hseat : seats[session]? = some w.room)
    (htarget : ∀ t, w.target = some t → t ≠ session ∧
      ∃ share, b.shares[t]? = some share ∧ share.room = w.room) :
    Rooms (b.putWatch session w) seats := by
  have hat (s : SessionId) : (b.putWatch session w).watches[s]? =
      if s = session then some w else b.watches[s]? := insert_at _ _ _ _
  refine ⟨h.shares, fun s w' hw' => ?_, fun s w' t hw' ht => ?_, h.full⟩
  · rw [hat] at hw'
    split at hw'
    · next he =>
      cases hw'
      rw [he]
      exact hseat
    · exact h.watches s w' hw'
  · rw [hat] at hw'
    split at hw'
    · next he =>
      cases hw'
      rw [he]
      exact htarget t ht
    · exact h.targets s w' t hw' ht

/-- Telling a watcher something leaves the board as it should be. -/
theorem inv_tellUnplayable (h : Inv b seats) (session target : SessionId) :
    Inv (b.tellUnplayable session target) seats := by
  unfold Board.tellUnplayable
  split
  · exact h
  · next w hw =>
    split
    · refine ⟨rooms_putWatch h.rooms ?_ ?_, h.ordered.change h.ordered.told ?_ ?_⟩
      · exact h.rooms.watches session w hw
      · exact fun t ht => h.rooms.targets session w t hw ht
      · exact fun _ _ hs _ => hs
      · intro t _ _ s
        rw [Board.putWatch, insert_at]
        split
        · next he =>
          rw [he, hw]
          rfl
        · rfl
    · exact h

theorem settleBefore_ordered {before : Option SessionId} {target : SessionId} (now : ℕ)
    (h : b.OrderedBut fun s => before = some s ∨ s = target) :
    (b.settleBefore before target now).OrderedBut (fun s => s = target) := by
  unfold Board.settleBefore
  split
  · next t ht =>
    obtain ⟨hbefore, -⟩ := Option.filter_eq_some_iff.mp ht
    refine (Board.settle_ordered h t now).mono fun s hs => ?_
    rcases hs.1 with hb | hs'
    · rw [hbefore] at hb
      exact absurd (Option.some.inj hb).symm hs.2
    · exact hs'
  · next ht =>
    refine h.mono fun s hs => ?_
    rcases hs with hb | hs
    · by_contra hne
      exact absurd (Option.filter_eq_none_iff.mp ht s hb) (by simpa using hne)
    · exact hs

theorem shrinks_settleBefore (b : Board β) (before : Option SessionId) (target : SessionId)
    (now : ℕ) : Shrinks b (b.settleBefore before target now) := by
  unfold Board.settleBefore
  split
  · exact shrinks_settle b _ now
  · exact Shrinks.refl b

theorem alike_nextSocket (b : Board β) : Alike b b.nextSocket.1 :=
  alike_watches rfl (fun _ => rfl) (Nat.le_succ _)

theorem closeReplaced_keeps (b : Board β) (old : Option ℕ) :
    (b.closeReplaced old).shares = b.shares ∧ (b.closeReplaced old).watches = b.watches := by
  cases old <;> exact ⟨rfl, rfl⟩

theorem closeReplaced_sockets (b : Board β) (old : Option ℕ) :
    (b.closeReplaced old).sockets = b.sockets ∧ (b.closeReplaced old).handed = b.handed := by
  cases old <;> exact ⟨rfl, rfl⟩

theorem alike_closeReplaced (b : Board β) (old : Option ℕ) : Alike b (b.closeReplaced old) := by
  obtain ⟨hs, hw⟩ := closeReplaced_keeps b old
  exact alike_watches hs (fun s => by rw [hw]) (Nat.le_of_eq (closeReplaced_sockets b old).1.symm)

theorem sharesIn_iff (b : Board β) (target : SessionId) (room : RoomId) :
    b.sharesIn target room = true ↔
      ∃ share, b.shares[target]? = some share ∧ share.room = room := by
  simp [Board.sharesIn, Option.any_eq_true]

/-- A watch that turns to a share in its room, from whatever it watched. -/
theorem inv_turnTo (h : Inv b seats) {session target : SessionId} {w : Watch}
    (hseat : seats[session]? = some w.room) (ht : w.target = some target) (hne : target ≠ session)
    (hin : b.sharesIn target w.room = true) {before : Option SessionId}
    (hbefore : (b.watches[session]?).bind Watch.target = before) (now : ℕ) :
    Inv (b.turnTo session w before target now) seats := by
  have hr : Rooms (b.putWatch session w) seats := by
    refine rooms_putWatch h.rooms hseat fun t hw => ?_
    have he : target = t := Option.some.inj (ht.symm.trans hw)
    subst he
    exact ⟨hne, (sharesIn_iff b target w.room).mp hin⟩
  have ho := ordered_putWatch h.ordered session w
  rw [hbefore, ht] at ho
  have hlate : ((b.putWatch session w).settleBefore before target now).OrderedBut
      fun s => s = target := by
    refine settleBefore_ordered now (ho.mono fun s hs => hs.imp id fun he => ?_)
    exact (Option.some.inj he).symm
  exact inv_tellUnplayable (inv_settle (hr.shrink (shrinks_settleBefore _ before target now)) hlate
    target now fun s hs => hs) session target

theorem inv_watch (h : Inv b seats) {session : SessionId} {room : RoomId}
    (hseat : seats[session]? = some room) (target : SessionId) (decode : List ScreenCodec)
    (sound : Bool) (now : ℕ) : Inv (b.watch session room target decode sound now).1 seats := by
  unfold Board.watch
  split
  · exact h
  · next hcan =>
    obtain ⟨hne, hin⟩ := not_or.mp hcan
    obtain ⟨hs, hw⟩ := closeReplaced_keeps b.nextSocket.1 ((b.watches[session]?).map Watch.socket)
    have h₂ := (h.alike (alike_nextSocket b)).alike
      (alike_closeReplaced b.nextSocket.1 ((b.watches[session]?).map Watch.socket))
    have hin : b.sharesIn target room = true := by simpa using hin
    refine inv_turnTo h₂ hseat rfl hne ?_ (by rw [hw]; rfl) now
    rw [Board.sharesIn, hs]
    exact hin

theorem settleBefore_eq (b : Board β) {before : Option SessionId} {target : SessionId}
    (h : before ≠ some target) (now : ℕ) :
    b.settleBefore before target now = b.settleFor before now := by
  unfold Board.settleBefore Board.settleFor
  cases before with
  | none => rfl
  | some t =>
    have hne : t ≠ target := fun he => h (congrArg some he)
    simp [Option.filter, hne]

theorem inv_switch (h : Inv b seats) (session : SessionId) (socket : ℕ) (target : SessionId)
    (decode : Option (List ScreenCodec)) (now : ℕ) :
    Inv (b.switch session socket target decode now).1 seats := by
  unfold Board.switch Board.watchOn
  split
  · exact h
  · next w hw =>
    have hw := (Option.filter_eq_some_iff.mp hw).1
    have hseat := h.rooms.watches session w hw
    have hbefore : (b.watches[session]?).bind Watch.target = w.target := by rw [hw]; rfl
    dsimp only
    split
    · next hcan =>
      refine inv_turnTo h ?_ ?_ hcan.1 ?_ hbefore now
      · exact hseat
      · rfl
      · exact hcan.2
    · next hcan =>
      -- what it watched shares in its room, so it is another that it can't watch
      have hne : w.target ≠ some target := by
        intro ht
        obtain ⟨hother, hin⟩ := h.rooms.targets session w target hw ht
        exact hcan ⟨hother, (sharesIn_iff b target w.room).mpr hin⟩
      rw [settleBefore_eq _ hne]
      refine inv_settleFor ?_ w.target now ?_
      · exact rooms_putWatch h.rooms hseat fun t ht => by cases ht
      · refine (ordered_putWatch h.ordered session _).mono fun s hs => ?_
        rcases hs with hs | hs
        · exact hbefore ▸ hs
        · cases hs

theorem eachWatcher_at (b : Board β) (session s : SessionId) (f : Watch → Watch) :
    (b.eachWatcher session f).watches[s]? =
      (b.watches[s]?).map fun w => if w.target = some session then f w else w :=
  Std.ExtTreeMap.getElem?_map

/-- The rooms with a share put on the board, its watchers given no format yet. -/
theorem rooms_putShare (h : Rooms b seats) {session : SessionId} {share : Share β}
    (hseat : seats[session]? = some share.room)
    (hroom : b.othersIn session share.room < maxScreensPerRoom) :
    Rooms ((b.eachWatcher session fun w => { w with codec := none }).putShare session share)
      seats := by
  have hw (s : SessionId) (w' : Watch)
      (hw' : (b.eachWatcher session fun w => { w with codec := none }).watches[s]? = some w') :
      ∃ w, b.watches[s]? = some w ∧ w'.room = w.room ∧ w'.target = w.target := by
    rw [eachWatcher_at, Option.map_eq_some_iff] at hw'
    obtain ⟨w, hw, rfl⟩ := hw'
    refine ⟨w, hw, ?_⟩
    split <;> exact ⟨rfl, rfl⟩
  refine ⟨fun s s' hs => ?_, fun s w' hw' => ?_, fun s w' t hw' ht => ?_, fun room => ?_⟩
  · rw [Board.putShare_at] at hs
    split at hs
    · next he =>
      cases hs
      rw [he]
      exact hseat
    · exact h.shares s s' hs
  · obtain ⟨w, hw, hr, -⟩ := hw s w' hw'
    rw [hr]
    exact h.watches s w hw
  · obtain ⟨w, hw, hr, htarget⟩ := hw s w' hw'
    obtain ⟨hne, old, hold, hsame⟩ := h.targets s w t hw (htarget ▸ ht)
    refine ⟨hne, ?_⟩
    rw [Board.putShare_at]
    by_cases he : t = session
    · -- it shared in that room before, and its session has not moved since
      subst he
      have := (h.shares t old hold).symm.trans hseat
      exact ⟨share, if_pos rfl, by rw [hr, ← hsame]; exact (Option.some.inj this).symm⟩
    · exact ⟨old, by rw [if_neg he]; exact hold, by rw [hr, hsame]⟩
  · by_cases hr : share.room = room
    · refine (Board.sharers_length_le (l := session :: (b.shares.toList.filter fun e =>
        e.2.room = share.room ∧ e.1 ≠ session).map Prod.fst) fun s hm => ?_).trans ?_
      · obtain ⟨s', hs', hroom'⟩ := (Board.mem_sharers _ room s).mp hm
        rw [Board.putShare_at] at hs'
        split at hs'
        · next he => exact he ▸ List.mem_cons_self
        · next he =>
          refine List.mem_cons_of_mem _ ((mem_keys b.shares _ s).mpr ⟨s', hs', ?_⟩)
          simp [hroom', hr, he]
      · rw [List.length_cons, List.length_map]
        exact hroom
    · refine (Board.sharers_length_le fun s hm => ?_).trans (h.full room)
      obtain ⟨s', hs', hroom'⟩ := (Board.mem_sharers _ room s).mp hm
      rw [Board.putShare_at] at hs'
      split at hs'
      · cases hs'
        exact absurd hroom' hr
      · exact (b.mem_sharers room s).mpr ⟨s', hs', hroom'⟩

theorem ordered_putShare (h : b.OrderedBut fun _ => False) {session : SessionId} {share : Share β}
    (ht : share.Told) :
    ((b.eachWatcher session fun w => { w with codec := none }).putShare session
      share).OrderedBut fun s => s = session := by
  refine h.change (fun t s' hs => ?_) (fun t s' hs hn => ?_) fun t hn _ s => ?_
  · rw [Board.putShare_at] at hs
    split at hs
    · cases hs
      exact ht
    · exact h.told t s' hs
  · rw [Board.putShare_at, if_neg hn] at hs
    exact hs
  · show ((b.eachWatcher session _).watches[s]?).bind _ = _
    rw [eachWatcher_at]
    cases b.watches[s]? with
    | none => rfl
    | some w =>
      rw [Option.map_some, Option.bind_some, Option.bind_some]
      by_cases hw : w.target = some session
      · have hother : ¬w.target = some t := fun he => hn (Option.some.inj (he.symm.trans hw))
        rw [if_pos hw, Board.view_other hother]
        exact Board.view_other hother
      · rw [if_neg hw]

theorem inv_share (C : Ceiling β) (h : Inv b seats) {session : SessionId} {room : RoomId}
    (hseat : seats[session]? = some room) (encode : List ScreenCodec) (sound : Bool) (now : ℕ) :
    Inv (b.share C session room encode sound now).1 seats := by
  unfold Board.share
  split
  · exact h
  · next hfull =>
    obtain ⟨hs, -⟩ := closeReplaced_keeps b.nextSocket.1 ((b.shares[session]?).map Share.socket)
    have h₂ := (h.alike (alike_nextSocket b)).alike
      (alike_closeReplaced b.nextSocket.1 ((b.shares[session]?).map Share.socket))
    refine inv_settle (rooms_putShare h₂.rooms ?_ ?_) (ordered_putShare h₂.ordered
      (Share.told_want _)) session now fun s hs => hs
    · exact hseat
    · rw [Board.othersIn, hs]
      exact Nat.lt_of_not_ge hfull

theorem listening_eq {t : SessionId} {share : Share β} (hs : b.shares[t]? = some share) :
    b.listening t = (share.sound && (b.watchersOf t).any Watch.sound) := by
  rw [Board.listening, hs, Board.watchersOf, List.any_filter]
  exact congrArg₂ _ rfl (List.any_congr rfl fun w => Bool.and_comm _ _)

/-- A watcher's sound button moves only whether its share's sound is wanted. -/
theorem inOrder_hear (h : b.OrderedBut fun _ => False) {session t : SessionId} {w : Watch}
    {share share' : Share β} (hw : b.watches[session]? = some w) (on : Bool)
    (hs : b.shares[t]? = some share) (hencode : share'.encode = share.encode)
    (hwanted : share'.wanted = share.wanted) (hsound : share'.sound = share.sound)
    (hsounding : share'.sounding = (b.putWatch session { w with sound := on }).listening t) :
    (b.putWatch session { w with sound := on }).InOrder t share' := by
  have hput := (h.order t share hs id).formats
  have hsame {δ : Type} (f : Watch → δ) (hf : f { w with sound := on } = f w) (s : SessionId) :
      ((b.putWatch session { w with sound := on }).watches[s]?).bind (Board.seen t f) =
        (b.watches[s]?).bind (Board.seen t f) := by
    rw [Board.putWatch, insert_at]
    split
    · next he =>
      rw [he, hw, Option.bind_some, Option.bind_some, Board.seen, Board.seen, hf]
    · rfl
  have hdecodes := Board.watchersOf_congr Watch.decode (hsame Watch.decode rfl)
  have hcodecs := Board.watchersOf_congr Watch.codec (hsame Watch.codec rfl)
  refine ⟨?_, ?_⟩
  · rw [hencode, hwanted, hcodecs, Board.decodesFor, hdecodes]
    exact hput
  · rw [hsounding, hsound]
    exact listening_eq hs

/-- Asking for sound, or for none, is a watch changed, and whether the share's is sent. -/
theorem hear_cases (b : Board β) (session : SessionId) (socket : ℕ) (on : Bool) :
    b.hear session socket on = b ∨ ∃ w, b.watches[session]? = some w ∧
      (b.hear session socket on = b.putWatch session { w with sound := on } ∨
        ∃ t share, (b.putWatch session { w with sound := on }).shares[t]? = some share ∧
          b.hear session socket on = (b.putWatch session { w with sound := on }).putShare t
            { share with
              sounding := (b.putWatch session { w with sound := on }).listening t }.want) := by
  unfold Board.hear Board.watchOn
  split
  · exact .inl rfl
  · next w hw =>
    refine .inr ⟨w, (Option.filter_eq_some_iff.mp hw).1, ?_⟩
    dsimp only
    split
    · exact .inl rfl
    · next target share hsome =>
      split
      · obtain ⟨t, -, he⟩ := Option.bind_eq_some_iff.mp hsome
        obtain ⟨share₀, hs, he⟩ := Option.map_eq_some_iff.mp he
        obtain ⟨rfl, rfl⟩ := Prod.mk.inj he
        exact .inr ⟨t, share₀, hs, rfl⟩
      · exact .inl rfl

theorem inv_hear (h : Inv b seats) (session : SessionId) (socket : ℕ) (on : Bool) :
    Inv (b.hear session socket on) seats := by
  unfold Board.hear Board.watchOn
  split
  · exact h
  · next w hw =>
    have hw := (Option.filter_eq_some_iff.mp hw).1
    have hrooms : Rooms (b.putWatch session { w with sound := on }) seats :=
      rooms_putWatch h.rooms (h.rooms.watches session w hw) fun t ht =>
        h.rooms.targets session w t hw ht
    have hother (t : SessionId) (share : Share β) (hs : b.shares[t]? = some share)
        (ht : ¬w.target = some t) :
          (b.putWatch session { w with sound := on }).InOrder t share := by
      refine (ordered_putWatch h.ordered session { w with sound := on }).order t share hs ?_
      rw [hw]
      exact not_or.mpr ⟨ht, ht⟩
    dsimp only
    split
    -- The watch is of no share: nothing is asked anew.
    · next hnone =>
      refine ⟨hrooms, h.ordered.told, fun t share hs _ => hother t share hs fun ht => ?_⟩
      have hs : b.shares[t]? = some share := hs
      have hnone : (w.target.bind fun target => (b.shares[target]?).map fun share =>
        (target, share)) = none := hnone
      rw [ht, Option.bind_some, hs] at hnone
      cases hnone
    · next target share hsome =>
      have hsome : (w.target.bind fun target => (b.shares[target]?).map fun share =>
        (target, share)) = some (target, share) := hsome
      obtain ⟨t, ht, hsome⟩ := Option.bind_eq_some_iff.mp hsome
      obtain ⟨share₀, hs, he⟩ := Option.map_eq_some_iff.mp hsome
      obtain ⟨rfl, rfl⟩ := Prod.mk.inj he
      -- The share it is of is told what to want now, unless it wants that already.
      have hs' : (b.putWatch session { w with sound := on }).shares[t]? = some share₀ := hs
      split
      · have hat (s : SessionId) :=
          Board.putShare_at (b.putWatch session { w with sound := on }) t s
          { share₀ with sounding := (b.putWatch session { w with sound := on }).listening t }.want
        refine ⟨hrooms.shrink ⟨fun s share hput => ?_, fun s w' hw' => ⟨w', hw', rfl,
          fun u hu => ⟨hu, fun hk => ?_⟩⟩⟩, ⟨fun s share hput => ?_, fun s share hput _ => ?_⟩⟩
        -- the shares and the watches, in the rooms they were in
        · rw [hat] at hput
          split at hput
          · next he =>
            cases hput
            exact ⟨share₀, he ▸ hs', rfl⟩
          · exact ⟨share, hput, rfl⟩
        · rw [hat]
          split
          · rfl
          · exact hk
        -- what each share was last told, and that it is in order
        · rw [hat] at hput
          split at hput
          · cases hput
            exact Share.told_want _
          · exact h.ordered.told s share hput
        · rw [hat] at hput
          split at hput
          · next he =>
            cases hput
            subst he
            have hin : (b.putWatch session { w with sound := on }).InOrder s { share₀ with
                sounding := (b.putWatch session { w with sound := on }).listening s }.want :=
              inOrder_hear h.ordered hw on hs rfl rfl rfl rfl
            exact ⟨hin.formats, hin.sounding⟩
          · next he =>
            have hin := hother s share hput fun hw => he (Option.some.inj (hw.symm.trans ht))
            exact ⟨hin.formats, hin.sounding⟩
      · next hquiet =>
        refine ⟨hrooms, h.ordered.told, fun s share hput _ => ?_⟩
        by_cases hst : w.target = some s
        · have he : s = t := Option.some.inj (hst.symm.trans ht)
          subst he
          have hput : b.shares[s]? = some share := hput
          rw [hs] at hput
          cases hput
          exact inOrder_hear h.ordered hw on hs rfl rfl rfl (not_not.mp hquiet)
        · exact hother s share hput hst

theorem Board.settle_kept (b : Board β) (t : SessionId) (now : ℕ) (s : SessionId) :
    (((b.settle t now).shares[s]?).isSome ↔ (b.shares[s]?).isSome) ∧
      (((b.settle t now).watches[s]?).isSome ↔ (b.watches[s]?).isSome) := by
  cases hb : b.shares[t]? with
  | none =>
    rw [settle_of_none hb]
    exact ⟨Iff.rfl, Iff.rfl⟩
  | some share =>
    obtain ⟨hw, -, -, share', hshares, -⟩ := settle_of_some hb now
    refine ⟨?_, ?_⟩
    · rw [hshares, insert_at]
      split
      · next he => simp [he, hb]
      · rfl
    · rw [hw, Std.ExtTreeMap.getElem?_map, Option.isSome_map]

theorem Board.settleFor_kept (b : Board β) (target : Option SessionId) (now : ℕ) (s : SessionId) :
    (((b.settleFor target now).shares[s]?).isSome ↔ (b.shares[s]?).isSome) ∧
      (((b.settleFor target now).watches[s]?).isSome ↔ (b.watches[s]?).isSome) := by
  unfold settleFor
  split
  · exact settle_kept b _ now s
  · exact ⟨Iff.rfl, Iff.rfl⟩

/-- Whoever left is not on the board. -/
theorem leave_gone (b : Board β) (session : SessionId) (now : ℕ) :
    (b.leave session now).1.shares[session]? = none ∧
      (b.leave session now).1.watches[session]? = none := by
  apply leave_rule (P := fun b => b.shares[session]? = none)
    (Q := fun b => b.shares[session]? = none ∧ b.watches[session]? = none) b session now
  · exact id
  · intro share _
    show (b.shares.erase session)[session]? = none
    rw [erase_at, if_pos rfl]
  · exact fun _ hs hw => ⟨hs, hw⟩
  · intro b' w h _
    have hgone : (b'.watches.erase session)[session]? = none := by rw [erase_at, if_pos rfl]
    obtain ⟨hshares, hwatches⟩ := Board.settleFor_kept
      (({ b' with watches := b'.watches.erase session } : Board β).close w.socket .ended) w.target
      now session
    refine ⟨?_, ?_⟩
    · refine Option.not_isSome_iff_eq_none.mp fun hs => ?_
      have hs : (b'.shares[session]?).isSome := hshares.mp hs
      rw [h] at hs
      cases hs
    · refine Option.not_isSome_iff_eq_none.mp fun hs => ?_
      have hs : ((b'.watches.erase session)[session]?).isSome := hwatches.mp hs
      rw [hgone] at hs
      cases hs

/-- A seat that nobody on the board is in may change. -/
theorem Rooms.reseat (h : Rooms b seats) {seats' : FMap SessionId RoomId} {session : SessionId}
    (hshares : b.shares[session]? = none) (hwatches : b.watches[session]? = none)
    (hseats : ∀ s, s ≠ session → seats'[s]? = seats[s]?) : Rooms b seats' := by
  refine ⟨fun s share hs => ?_, fun s w hw => ?_, h.targets, h.full⟩
  · have hne : s ≠ session := by
      rintro rfl
      rw [hshares] at hs
      cases hs
    rw [hseats s hne]
    exact h.shares s share hs
  · have hne : s ≠ session := by
      rintro rfl
      rw [hwatches] at hw
      cases hw
    rw [hseats s hne]
    exact h.watches s w hw

/-- Every step keeps the invariant, as long as what it starts is in the room its
session is in. -/
theorem inv_step (C : Ceiling β) {st st' : Seated β} {a : Act} (h : Inv st.board st.seats)
    (hok : InRoom st a) (hstep : step C st a = some st') : Inv st'.board st'.seats := by
  cases a with
  | share session room encode sound now =>
    cases hstep
    exact inv_share C h hok encode sound now
  | unshare session socket =>
    cases hstep
    exact inv_unshare h session socket
  | watch session room target decode sound now =>
    cases hstep
    exact inv_watch h hok target decode sound now
  | switch session socket target decode now =>
    cases hstep
    exact inv_switch h session socket target decode now
  | unwatch session socket now =>
    cases hstep
    exact inv_unwatch h session socket now
  | keyframe session socket now =>
    cases hstep
    exact h.alike (alike_keyframe st.board session socket now)
  | hear session socket on =>
    cases hstep
    exact inv_hear h session socket on
  | sound session socket packet now =>
    cases hstep
    exact h.alike (alike_soundAt C st.board session socket packet now)
  | frame session socket frame now =>
    cases hstep
    exact h.alike (alike_frameAt C st.board session socket frame now)
  | leave session now =>
    cases hstep
    exact inv_leave h session now
  | drain session d =>
    cases hstep
    exact h.alike (alike_drain st.board session d)
  | moves session room now =>
    cases hstep
    obtain ⟨hshares, hwatches⟩ := leave_gone st.board session now
    have hleft := inv_leave h session now
    refine ⟨hleft.rooms.reseat hshares hwatches fun s hne => ?_, hleft.ordered⟩
    cases room with
    | none => exact (erase_at _ _ _).trans (if_neg hne)
    | some room => exact (insert_at _ _ _ _).trans (if_neg hne)

theorem inv_start : Inv (Board.empty : Board β) ∅ := by
  refine ⟨⟨fun s share hs => ?_, fun s w hw => ?_, fun s w t hw => ?_, fun room => ?_⟩,
    fun t share hs => ?_, fun t share hs => ?_⟩
  · cases Std.ExtTreeMap.getElem?_empty.symm.trans hs
  · cases Std.ExtTreeMap.getElem?_empty.symm.trans hw
  · cases Std.ExtTreeMap.getElem?_empty.symm.trans hw
  · exact (Board.sharers_length_le (l := []) fun s hm => by
      obtain ⟨share, hs, -⟩ := (Board.mem_sharers _ room s).mp hm
      cases Std.ExtTreeMap.getElem?_empty.symm.trans hs).trans (Nat.zero_le _)
  · cases Std.ExtTreeMap.getElem?_empty.symm.trans hs
  · cases Std.ExtTreeMap.getElem?_empty.symm.trans hs

/-- The board is what it should be: no room has more shares than it may, everybody
who watches watches another who shares in their room, each share was last told to
make what `choose` makes of its watchers, who have the formats that gives them,
and was last told to send its sound when it has some and a watcher asked for it. -/
structure Board.Consistent (b : Board β) : Prop where
  full : ∀ room, (b.sharers room).length ≤ maxScreensPerRoom
  targets : ∀ (s : SessionId) (w : Watch) (t : SessionId), b.watches[s]? = some w →
    w.target = some t → t ≠ s ∧ ∃ share, b.shares[t]? = some share ∧ share.room = w.room
  told : ∀ (t : SessionId) (share : Share β), b.shares[t]? = some share →
    ∃ codecs sound, lastWant share.said = some (codecs, sound) ∧
      (codecs, (b.watchersOf t).map Watch.codec) =
        choose share.encode ((b.watchersOf t).map Watch.decode) ∧
      (sound = some true ↔ share.sound = true ∧ ∃ (s : SessionId) (w : Watch),
        b.watches[s]? = some w ∧ w.target = some t ∧ w.sound = true)

theorem Inv.consistent (h : Inv b seats) : b.Consistent := by
  refine ⟨h.rooms.full, h.rooms.targets, fun t share hs => ?_⟩
  obtain ⟨hformats, hsounding⟩ := h.ordered.order t share hs id
  refine ⟨share.wanted, flag share.sounding, h.ordered.told t share hs, hformats.symm, ?_⟩
  have hflag : flag share.sounding = some true ↔ share.sounding = true := by
    cases share.sounding <;> simp [flag]
  rw [hflag, hsounding, Bool.and_eq_true, List.any_eq_true]
  refine and_congr_right fun _ => ⟨?_, ?_⟩
  · rintro ⟨w, hm, hsound⟩
    obtain ⟨⟨s, hw⟩, ht⟩ := (Board.mem_watchersOf _ t w).mp hm
    exact ⟨s, w, hw, ht, hsound⟩
  · rintro ⟨s, w, hw, ht, hsound⟩
    exact ⟨w, (Board.mem_watchersOf _ t w).mpr ⟨⟨s, hw⟩, ht⟩, hsound⟩

/-- The board is consistent after every operation of a run that starts shares and
watches in the room their session is in. -/
theorem board_consistent (C : Ceiling β) {acts : List Act} {st : Seated β}
    (hmeets : (machine C).Meets InRoom acts) (hrun : (machine C).run acts = some st) :
    st.board.Consistent :=
  Inv.consistent ((machine C).invariant_of_meets (I := fun st => Inv st.board st.seats) inv_start
    (fun _ _ _ h hok hl => inv_step C h hok hl) hmeets hrun)

/-- Two people in a room, one sharing with sound and the other watching, who
can play the second of the formats it can be made in. -/
def oneWatcher : List Act :=
  [.moves 1 (some 5) 0, .moves 2 (some 5) 0, .share 1 5 [.vp8, .avc1] true 0,
    .watch 2 5 1 [.avc1] true 1]

theorem board_consistent_oneWatcher :
    ∃ st share, (machine bucket).run oneWatcher = some st ∧ st.board.Consistent ∧
      st.board.shares[1]? = some share ∧ lastWant share.said = some ([.avc1], some true) := by
  have hok : (machine bucket).Meets InRoom oneWatcher := by decide
  have hruns : ∃ st share, (machine bucket).run oneWatcher = some st ∧
      st.board.shares[1]? = some share ∧ lastWant share.said = some ([.avc1], some true) :=
    ⟨_, _, rfl, rfl, rfl⟩
  obtain ⟨st, share, hr, hs, hsaid⟩ := hruns
  exact ⟨st, share, hr, board_consistent bucket hok hr, hs, hsaid⟩

end Linger.Screens
