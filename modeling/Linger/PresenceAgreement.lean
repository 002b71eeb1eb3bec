import Linger.StepMachine
import Linger.PresenceRecord

/-! One session from both ends: the app, the sockets it has had one after the
other, and the server's record, in every order in which sockets come and go. -/
namespace Linger
open FiniteMap StepMachine

/-- `queue` is what the app's core has been handed and not yet put on a socket,
`wires` each socket's frames that the server has not handled, `held` the sockets
the server counts on the session, and `graces` the grace periods still running.
`said` is whether the socket the app is on has said `ready` or `resumed`. -/
structure Reconnects where
  gateway : Gateway
  wires : ℕ → Option (List ClientFrame)
  held : Finset ℕ
  gone : Finset ℕ
  graces : Finset ℕ
  current : Option ℕ
  said : Bool
  queue : List ClientFrame
  window : Window
  watch : Watch

namespace Reconnects

inductive Act
  | look (window : Window)
  | setRoom (roomId : Option RoomId)
  | setAway (message : Option String)
  | tick (queued : Bool)
  | answered (queued : Bool)
  | notReady
  | connect (k : ℕ)
  | lose
  | forward
  | discard
  | ready
  | opened (k : ℕ)
  | handle (k : ℕ) (visible : Bool)
  | closed (k : ℕ)
  | dropped (k : ℕ)
  | graceOver (number : ℕ)
  | elsewhere (call : Gateway.PresenceCall)

def handOver (t : Reconnects) (next : Watch × Option ClientFrame) : Reconnects :=
  { t with watch := next.1, queue := t.queue ++ next.2.toList }

def put (t : Reconnects) (k : ℕ) (frames : List ClientFrame) : Reconnects :=
  { t with wires := Function.update t.wires k (some frames) }

def step (u : UserId) (s : SessionId) (t : Reconnects) : Act → Option Reconnects
  | .look window => some { t with window := window }
  | .setRoom roomId => some { t with watch := t.watch.setRoom roomId }
  | .setAway message => some { t with watch := t.watch.setAway message }
  | .tick queued => some (t.handOver (t.watch.tick t.window queued))
  | .answered queued => (t.watch.answered t.window queued).map t.handOver
  | .notReady => some { t with watch := t.watch.setLive false }
  | .connect k =>
    match t.wires k with
    | some _ => none
    | none => some { t.put k [] with current := some k, said := false }
  | .lose => some { t with current := none }
  | .forward =>
    match t.queue, t.current with
    | frame :: queue, some k =>
      some { t.put k ((t.wires k).getD [] ++ [frame]) with queue := queue }
    | _, _ => none
  | .discard =>
    match t.queue, t.current with
    | _ :: queue, none => some { t with queue := queue }
    | _, _ => none
  | .ready =>
    -- a status that is not ready lies between any two that are
    if t.current.isSome ∧ !t.said then
      some { t with said := true, watch := (t.watch.setLive false).setLive true }
    else none
  | .opened k =>
    if (t.wires k).isSome ∧ k ∉ t.held ∧ k ∉ t.gone then
      some { t with gateway := t.gateway.connectionOpened u s, held := insert k t.held }
    else none
  | .handle k visible =>
    match t.wires k with
    | some (frame :: rest) =>
      if k ∈ t.held then
        some { t.put k rest with gateway := t.gateway.handleClientFrame u s visible frame }
      else none
    | _ => none
  | .closed k =>
    if k ∈ t.held then
      some { t with
        gateway := (t.gateway.connectionClosed u s).1
        held := t.held.erase k
        gone := insert k t.gone }
    else none
  | .dropped k =>
    if k ∈ t.held then
      some { t with
        gateway := (t.gateway.connectionDropped u s).1
        held := t.held.erase k
        gone := insert k t.gone
        graces := (t.gateway.connectionDropped u s).2.elim t.graces (insert · t.graces) }
    else none
  | .graceOver number =>
    if number ∈ t.graces then
      some { t with
        gateway := (t.gateway.graceOver u s number).1
        graces := t.graces.erase number }
    else none
  | .elsewhere call =>
    if call.touches u s then none else some { t with gateway := (t.gateway.call call).1 }

def start (window : Window) : Reconnects :=
  ⟨Gateway.new, fun _ => none, ∅, ∅, ∅, none, false, [], window, Watch.fresh⟩

def machine (u : UserId) (s : SessionId) (window : Window) : Machine Reconnects Act :=
  ⟨start window, step u s⟩

/-- The steps that keep the two ends together. The socket the app is on opens
where the session's record starts afresh, no frame of another is handled once it
has, and what the app says on a socket comes with its answer after that socket's
`ready` and before the next one's. -/
def Orderly (u : UserId) (s : SessionId) (t : Reconnects) : Act → Prop
  | .opened k => t.current = some k → ∀ own ∈ t.gateway.record u s, own.Afresh
  | .handle k visible =>
    (∀ j ∈ t.current, j ∈ t.held → j = k) ∧
      ∀ frame ∈ (t.wires k).bind List.head?, frame.Taken visible
  | .forward => t.said = true
  | .ready => t.queue = [] ∧ ∀ waited ∈ t.watch.running, waited.2 = false
  | _ => True

/-- What the server makes of a socket that is not finished with, once it counts
on it, and before. -/
def heardBy (u : UserId) (s : SessionId) (t : Reconnects) (k : ℕ) : Stance :=
  if k ∈ t.held then standingOf (t.gateway.record u s) else Stance.start

/-- The frames on their way to the server over the socket the app is on. -/
def coming (t : Reconnects) (k : ℕ) : List ClientFrame :=
  (t.wires k).getD [] ++ if t.said then t.queue else []

def believed (t : Reconnects) : Stance := if t.said then t.watch.ahead.stance else Stance.start

/-- Once the server has heard what is coming, it has the app where it believes it is. -/
structure Inv (u : UserId) (s : SessionId) (t : Reconnects) : Prop where
  dialed : ∀ k ∈ t.held, (t.wires k).isSome ∧ k ∉ t.gone
  sensible : t.watch.Sensible
  kept : Kept t.held t.graces (t.gateway.record u s)
  heard : ∀ k ∈ t.current, k ∉ t.gone → (heardBy u s t k).hearAll (coming t k) = believed t

theorem Stance.hearAll_append (x : Stance) (xs ys : List ClientFrame) :
    x.hearAll (xs ++ ys) = (x.hearAll xs).hearAll ys := List.foldl_append

section Steps
variable {u : UserId} {s : SessionId} {t t' : Reconnects}

theorem put_dialed {j k : ℕ} {frames : List ClientFrame} (h : (t.wires j).isSome) :
    ((t.put k frames).wires j).isSome := by
  show (Function.update t.wires k (some frames) j).isSome
  by_cases hjk : j = k
  · rw [hjk, Function.update_self]
    rfl
  · rw [Function.update_of_ne hjk]
    exact h

/-- Steps at the app's end: the watch and what it hands over. -/
theorem inv_handOver (h : Inv u s t) {next : Watch × Option ClientFrame}
    (hn : Watch.Says t.watch.ahead.stance next) : Inv u s (t.handOver next) := by
  refine ⟨h.dialed, hn.sensible, h.kept, fun k hk hg => ?_⟩
  have hbefore := h.heard k hk hg
  unfold coming believed at hbefore ⊢
  show (heardBy u s t k).hearAll
      ((t.wires k).getD [] ++ if t.said then t.queue ++ next.2.toList else [])
    = if t.said then next.1.ahead.stance else Stance.start
  cases hs : t.said with
  | false => simpa [hs] using hbefore
  | true =>
    simp only [hs, if_true] at hbefore ⊢
    rw [← List.append_assoc, Stance.hearAll_append, hbefore, hn.heard]

theorem inv_watch (h : Inv u s t) {w : Watch} (hs : w.sent = t.watch.sent)
    (hr : w.running = t.watch.running) : Inv u s { t with watch := w } := by
  have ha : w.ahead = t.watch.ahead := by rw [Watch.ahead, Watch.ahead, hs, hr]
  refine ⟨h.dialed, ⟨?_, ?_⟩, h.kept, fun k hk hg => ?_⟩
  · rw [hs]
    exact h.sensible.sent
  · rw [ha]
    exact h.sensible.ahead
  · have hbefore := h.heard k hk hg
    unfold believed at hbefore ⊢
    rw [ha]
    exact hbefore

theorem inv_connect (h : Inv u s t) {k : ℕ} (hk : t.wires k = none) :
    Inv u s { t.put k [] with current := some k, said := false } := by
  have hheld : k ∉ t.held := fun hm => by
    have := (h.dialed k hm).1
    rw [hk] at this
    cases this
  refine ⟨fun j hj => ?_, h.sensible, h.kept, fun j hj hg => ?_⟩
  · exact ⟨put_dialed (h.dialed j hj).1, (h.dialed j hj).2⟩
  · cases hj
    show (if k ∈ t.held then _ else _ : Stance).hearAll
      ((Function.update t.wires k (some []) k).getD [] ++ []) = _
    rw [if_neg hheld, Function.update_self]
    rfl

theorem inv_forward (h : Inv u s t) {frame : ClientFrame} {queue : List ClientFrame} {k : ℕ}
    (hq : t.queue = frame :: queue) (hk : t.current = some k) (hs : t.said = true) :
    Inv u s { t.put k ((t.wires k).getD [] ++ [frame]) with queue := queue } := by
  refine ⟨fun j hj => ?_, h.sensible, h.kept, fun j hj hg => ?_⟩
  · exact ⟨put_dialed (h.dialed j hj).1, (h.dialed j hj).2⟩
  · have hjk : k = j := Option.some.inj (hk.symm.trans hj)
    subst hjk
    have hbefore := h.heard k hj hg
    unfold coming at hbefore ⊢
    simp only [hs, if_true, hq] at hbefore
    show (heardBy u s t k).hearAll
      ((Function.update t.wires k _ k).getD [] ++ if t.said then queue else []) = believed t
    rw [← hbefore, Function.update_self, hs]
    simp

theorem inv_ready (h : Inv u s t) (hsaid : t.said = false) (hq : t.queue = [])
    (hr : ∀ waited ∈ t.watch.running, waited.2 = false) :
    Inv u s { t with said := true, watch := (t.watch.setLive false).setLive true } := by
  obtain ⟨hsent, hrun⟩ := Watch.setLive_again t.watch
  have ha := Watch.ahead_of_refused (w := (t.watch.setLive false).setLive true)
    (by rw [hrun]; exact hr)
  rw [hsent] at ha
  refine ⟨h.dialed, ⟨?_, ?_⟩, h.kept, fun k hk hg => ?_⟩
  · rw [hsent]
    exact Sent.sensible_start
  · rw [ha]
    exact Sent.sensible_start
  · have hbefore := h.heard k hk hg
    unfold coming believed at hbefore ⊢
    rw [hsaid] at hbefore
    show (heardBy u s t k).hearAll ((t.wires k).getD [] ++ t.queue) = Sent.stance (Watch.ahead _)
    rw [hq, ha]
    exact hbefore

/-- Steps at the server's end that take no frame: sockets that come and go, and
grace periods that end. The socket the app is on is heard as before. -/
theorem inv_server (h : Inv u s t) {g : Gateway} {held gone graces : Finset ℕ}
    (hdialed : ∀ k ∈ held, (t.wires k).isSome ∧ k ∉ gone) (hkept : Kept held graces (g.record u s))
    (hgone : ∀ k, k ∉ gone → k ∉ t.gone)
    (hheard : ∀ k ∈ t.current, k ∉ gone →
      (if k ∈ held then standingOf (g.record u s) else Stance.start) = heardBy u s t k) :
    Inv u s { t with gateway := g, held := held, gone := gone, graces := graces } := by
  refine ⟨hdialed, h.sensible, hkept, fun k hk hg => ?_⟩
  show (if k ∈ held then _ else _ : Stance).hearAll (coming t k) = believed t
  rw [hheard k hk hg]
  exact h.heard k hk (hgone k hg)

theorem inv_opened (h : Inv u s t) {k : ℕ} (hk : (t.wires k).isSome ∧ k ∉ t.gone)
    (hnot : k ∉ t.held)
    (hok : t.current = some k → ∀ own ∈ t.gateway.record u s, own.Afresh) :
    Inv u s { t with gateway := t.gateway.connectionOpened u s, held := insert k t.held } := by
  refine inv_server h (fun j hj => ?_) (kept_opened h.kept hnot) (fun _ => id) fun j hj hg => ?_
  · rcases Finset.mem_insert.mp hj with rfl | hj
    · exact hk
    · exact h.dialed j hj
  · unfold heardBy
    by_cases hjk : j = k
    · subst hjk
      rw [if_pos (Finset.mem_insert_self j _), if_neg hnot]
      exact standing_opened_afresh h.kept (hok hj)
    · by_cases hheld : j ∈ t.held
      · rw [if_pos (Finset.mem_insert_of_mem hheld), if_pos hheld]
        exact standing_opened_other h.kept hheld
      · rw [if_neg fun hm => (Finset.mem_insert.mp hm).elim hjk hheld, if_neg hheld]

theorem inv_left (h : Inv u s t) {g : Gateway} {graces : Finset ℕ} {k : ℕ}
    (hkept : Kept (t.held.erase k) graces (g.record u s))
    (hstands : ∀ j ∈ t.held.erase k, standingOf (g.record u s) = standingOf (t.gateway.record u s))
    :
    Inv u s { t with
      gateway := g, held := t.held.erase k, gone := insert k t.gone, graces := graces } := by
  have hdialed (j : ℕ) (hj : j ∈ t.held.erase k) : (t.wires j).isSome ∧ j ∉ insert k t.gone := by
    obtain ⟨hjk, hheld⟩ := Finset.mem_erase.mp hj
    refine ⟨(h.dialed j hheld).1, fun hm => ?_⟩
    exact (Finset.mem_insert.mp hm).elim hjk (h.dialed j hheld).2
  refine inv_server h hdialed hkept (fun j hj hg => hj (Finset.mem_insert_of_mem hg)) fun j _ hg =>
    ?_
  have hjk : j ≠ k := fun he => hg (he ▸ Finset.mem_insert_self j _)
  unfold heardBy
  by_cases hheld : j ∈ t.held
  · have hm := Finset.mem_erase.mpr ⟨hjk, hheld⟩
    rw [if_pos hm, if_pos hheld, hstands j hm]
  · rw [if_neg fun hm => hheld (Finset.mem_of_mem_erase hm), if_neg hheld]

theorem inv_graceOver (h : Inv u s t) (number : ℕ) :
    Inv u s { t with
      gateway := (t.gateway.graceOver u s number).1, graces := t.graces.erase number } := by
  refine inv_server h h.dialed (kept_graceOver h.kept number) (fun _ => id) fun k _ _ => ?_
  unfold heardBy
  split
  · next hheld => exact standing_graceOver h.kept hheld number
  · rfl

theorem inv_handle (h : Inv u s t) {k : ℕ} {visible : Bool} {frame : ClientFrame}
    {rest : List ClientFrame} (hw : t.wires k = some (frame :: rest)) (hk : k ∈ t.held)
    (honly : ∀ j ∈ t.current, j ∈ t.held → j = k) (ht : frame.Taken visible) :
    Inv u s { t.put k rest with gateway := t.gateway.handleClientFrame u s visible frame } := by
  obtain ⟨hkept, hstands⟩ := kept_handle h.kept hk ht
  refine ⟨fun j hj => ?_, h.sensible, hkept, fun j hj hg => ?_⟩
  · exact ⟨put_dialed (h.dialed j hj).1, (h.dialed j hj).2⟩
  · have hbefore := h.heard j hj hg
    unfold heardBy coming at hbefore
    show (if j ∈ t.held then _ else _ : Stance).hearAll
      ((Function.update t.wires k (some rest) j).getD [] ++ if t.said then t.queue else []) =
        believed t
    by_cases hjk : j = k
    · subst hjk
      rw [hw, if_pos hk] at hbefore
      rw [Function.update_self, if_pos hk, hstands, ← hbefore]
      rfl
    · have hheld : j ∉ t.held := fun hm => hjk (honly j hj hm)
      rw [if_neg hheld] at hbefore ⊢
      rw [Function.update_of_ne hjk]
      exact hbefore

theorem inv_elsewhere (h : Inv u s t) {call : Gateway.PresenceCall}
    (hc : call.touches u s = false) : Inv u s { t with gateway := (t.gateway.call call).1 } := by
  have hr := Gateway.record_call_elsewhere t.gateway u s call hc
  refine inv_server h h.dialed (by rw [hr]; exact h.kept) (fun _ => id) fun k _ _ => ?_
  rw [hr]
  rfl

theorem inv_step {a : Act} (h : Inv u s t) (hok : Orderly u s t a)
    (hs : step u s t a = some t') : Inv u s t' := by
  cases a with
  -- The window's own acts change what it would say next, and nothing that was said.
  | look window =>
    cases hs
    exact ⟨h.dialed, h.sensible, h.kept, h.heard⟩
  | setRoom roomId =>
    cases hs
    exact inv_watch h rfl rfl
  | setAway message =>
    cases hs
    exact inv_watch h rfl rfl
  | tick queued =>
    cases hs
    exact inv_handOver h (Watch.tick_moves t.window queued h.sensible)
  | answered queued =>
    obtain ⟨next, hn, rfl⟩ := Option.map_eq_some_iff.mp hs
    exact inv_handOver h (Watch.answered_moves t.window queued h.sensible hn)
  | notReady =>
    cases hs
    refine inv_watch h ?_ ?_ <;> unfold Watch.setLive <;> cases t.watch.live <;> rfl
  -- A socket comes or goes, and frames are handed over in order.
  | connect k =>
    simp only [step] at hs
    split at hs
    · cases hs
    · next hk =>
      cases hs
      exact inv_connect h hk
  | lose =>
    cases hs
    exact ⟨h.dialed, h.sensible, h.kept, fun k hk => by cases hk⟩
  | forward =>
    simp only [step] at hs
    split at hs
    · next frame queue k hq hk =>
      cases hs
      exact inv_forward h hq hk hok
    · cases hs
  | discard =>
    simp only [step] at hs
    split at hs
    · next frame queue hq hk =>
      cases hs
      refine ⟨h.dialed, h.sensible, h.kept, fun k hk' => ?_⟩
      rw [show t.current = none from hk] at hk'
      cases hk'
    · cases hs
  | ready =>
    simp only [step] at hs
    split at hs
    · next hc =>
      cases hs
      exact inv_ready h (by simpa using hc.2) hok.1 hok.2
    · cases hs
  | opened k =>
    simp only [step] at hs
    split at hs
    · next hc =>
      cases hs
      exact inv_opened h ⟨hc.1, hc.2.2⟩ hc.2.1 hok
    · cases hs
  | handle k visible =>
    simp only [step] at hs
    split at hs
    · next frame rest hw =>
      split at hs
      · next hk =>
        cases hs
        exact inv_handle h hw hk hok.1 (hok.2 frame (by rw [hw]; rfl))
      · cases hs
    · cases hs
  | closed k =>
    simp only [step] at hs
    split at hs
    · next hk =>
      cases hs
      exact inv_left h (kept_closed h.kept hk) fun j hj => standing_closed h.kept hk hj
    · cases hs
  | dropped k =>
    simp only [step] at hs
    split at hs
    · next hk =>
      cases hs
      exact inv_left h (kept_dropped h.kept hk) fun j _ => standing_dropped h.kept hk
    · cases hs
  -- somebody else's, or another session's
  | graceOver number =>
    simp only [step] at hs
    split at hs
    · cases hs
      exact inv_graceOver h number
    · cases hs
  | elsewhere call =>
    simp only [step] at hs
    split at hs
    · cases hs
    · next hc =>
      cases hs
      exact inv_elsewhere h (by simpa using hc)

theorem inv_start (window : Window) : Inv u s (start window) :=
  ⟨fun _ hk => (Finset.notMem_empty _ hk).elim, ⟨Sent.sensible_start, Sent.sensible_start⟩, rfl,
    fun _ hk => by cases hk⟩

end Steps

/-- Everything has come to rest: the app is on a socket that has said `ready`,
every frame it sent is answered for and handled, every other socket has closed
and no grace period is running. -/
structure Settled (t : Reconnects) : Prop where
  live : t.watch.live = true
  answered : t.watch.running = none
  queue : t.queue = []
  graces : t.graces = ∅
  onOne : ∃ k, t.current = some k ∧ t.said = true ∧ t.wires k = some [] ∧ t.held = {k}

/-- The server's record is what the app believes it has said: its room, whether
it is around, idle or away, and its away message. Being in a room is around there. -/
def Agrees (u : UserId) (s : SessionId) (t : Reconnects) : Prop :=
  ∃ own, t.gateway.record u s = some own ∧ own.roomId = t.watch.sent.roomId ∧
    own.state = (if t.watch.sent.state = .inRoom then .around else t.watch.sent.state) ∧
    own.awayMessage = t.watch.sent.awayMessage

instance decidableOrderly (u : UserId) (s : SessionId) (t : Reconnects) (a : Act) :
    Decidable (Orderly u s t a) := by
  unfold Orderly SessionPresence.Afresh
  cases a <;> dsimp only <;> infer_instance

end Reconnects
end Linger
