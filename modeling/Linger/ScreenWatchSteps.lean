import Linger.ScreenWatchOne

/-! What each thing this window does comes to, when at most one watch is not over. -/
namespace Linger.ScreenWatch
open FiniteMap StepMachine TaskPool
open Screens (ScreenCodec)

section Steps
variable {window : Window} {id : ℕ} {watch : Watching}

theorem connect_begins (hat : window.watchings[id]? = some watch) (hdone : watch.done = false) :
    window.connect id = window.begins (.connecting id) := by
  simp only [Window.connect, hat, hdone, Bool.false_eq_true, if_false]

theorem ask_cases (window : Window) (watch : Watching) (target : ℕ) :
    (window.asking watch = none ∧ window.ask watch target = window) ∨
    ∃ sid socket, watch.socket = some sid ∧
      window.sockets[sid]? = some socket ∧ socket.ready = .opened ∧
      window.asking watch = some (sid, socket) ∧ window.ask watch target =
        { window with sockets := window.sockets.insert sid { socket with
          asks := socket.asks ++ [target] } } := by
  unfold Window.ask
  cases hasking : window.asking watch with
  | none => exact Or.inl ⟨rfl, rfl⟩
  | some found =>
    obtain ⟨sid, hsid, hfound⟩ := Option.bind_eq_some_iff.mp hasking
    obtain ⟨socket, hsocket, hready⟩ := Option.bind_eq_some_iff.mp hfound
    obtain ⟨hopen, hsame⟩ := Option.ite_none_right_eq_some.mp hready
    obtain rfl := Option.some.inj hsame
    exact Or.inr ⟨sid, socket, hsid, hsocket, hopen, rfl, rfl⟩

/-- What is asked does not depend on what is shown, nor on the watch but for its socket. -/
theorem ask_sets {next : Watching} (hnext : next.socket = watch.socket)
    (shown : Option ScreenWatchState) (target : ℕ) :
    Window.ask { window.sets id next with shown := shown } next target =
      { (window.ask watch target).sets id next with shown := shown } := by
  unfold Window.ask Window.asking
  simp only [hnext, Window.sets]
  cases watch.socket with
  | none => rfl
  | some sid =>
    simp only [Option.bind_some]
    cases window.sockets[sid]? with
    | none => rfl
    | some socket =>
      simp only [Option.bind_some]
      by_cases hready : socket.ready = .opened
      · simp only [hready, if_true]
      · simp only [hready, if_false]

theorem alike_ask {sid : ℕ} {socket : Socket} (hsid : window.sockets[sid]? = some socket)
    (asks : List ℕ) :
    Alike window.sockets (window.sockets.insert sid { socket with asks := asks }) :=
  alike_insert hsid rfl

/-- The watch as it is switched to another share. -/
def Watching.aimed (watch : Watching) (target : ℕ) : Watching :=
  { watch with target := target, codec := none }

/-- A socket not open yet is closed for another; one that is open is asked. -/
theorem switchTo_cases (hat : window.watchings[id]? = some watch) (hdone : watch.done = false)
    (target : ℕ) :
    (∃ sid socket, watch.socket = some sid ∧ window.sockets[sid]? = some socket ∧
      socket.ready = .connecting ∧ window.switchTo id target = { window with
        sockets := (window.close (some sid)).sockets
        watchings := window.watchings.insert id { watch.aimed target with socket := none }
        tasks := window.tasks.insert window.begun (.connecting id)
        begun := window.begun + 1
        shown := some ((watch.aimed target).state .connecting (0, 0)) }) ∨
    ((∀ sid socket, watch.socket = some sid → window.sockets[sid]? = some socket →
      socket.ready ≠ .connecting) ∧
      window.switchTo id target = { (window.ask watch target).sets id (watch.aimed target) with
        shown := some ((watch.aimed target).state .connecting (0, 0)) }) := by
  have hgoes : ¬ watch.done = true := Bool.not_eq_true _ |>.mpr hdone
  unfold Window.switchTo
  simp only [hat]
  rw [if_neg hgoes]
  split
  · next hconnecting =>
    obtain ⟨sid, hsid, hany⟩ := Option.any_eq_true _ _ |>.mp hconnecting
    obtain ⟨socket, hsocket, hready⟩ := Option.any_eq_true _ _ |>.mp hany
    refine Or.inl ⟨sid, socket, hsid, hsocket, of_decide_eq_true hready, ?_⟩
    rw [hsid]
    unfold Window.connect
    simp only [Window.close, Window.sets, Window.begins, insert_insert, insert_at, if_true]
    rw [if_neg hgoes]
    rfl
  · next hconnecting =>
    refine Or.inr ⟨fun sid socket hsid hsocket hready => hconnecting ?_, ?_⟩
    · simp [hsid, hsocket, hready]
    · exact @ask_sets window id watch (watch.aimed target) rfl _ target

/-- A watch whose socket closed leaves what it would have left with it. -/
theorem without_sets {sid : ℕ} (hsocket : watch.socket = some sid)
    (shown : Option ScreenWatchState) :
    ((window.sets id { watch with socket := none }).without id
      { watch with socket := none } shown).close (some sid) =
      window.without id watch shown := by
  simp only [without_eq, hsocket, Window.sets, Window.close, insert_insert]

/-- A close of the watch's own socket is tried again, or ends it. -/
theorem closed_cases (h : Sound window) {sid : ℕ} {socket : Socket}
    (hsid : window.sockets[sid]? = some socket)
    (why : ScreenClosing) :
    (window.closed sid why = window ∧
      ∀ (id : ℕ) (watch : Watching), window.watchings[id]? = some watch → watch.socket ≠ some sid) ∨
    ∃ watch, window.watchings[socket.watch]? = some watch ∧ watch.done = false ∧
      watch.socket = some sid ∧ window.running = some socket.watch ∧
      ((why = .dropped ∧ watch.attempts < retries ∧
          (window.closed sid why).close (some sid) = { window with
        sockets := (window.close (some sid)).sockets
        watchings := window.watchings.insert socket.watch { watch with
          socket := none, attempts := watch.attempts + 1 }
        tasks := window.tasks.insert window.begun (.retrying socket.watch)
        begun := window.begun + 1 }) ∨
      ∃ shown, (window.closed sid why).close (some sid) =
        window.without socket.watch watch shown) := by
  unfold Window.closed
  simp only [hsid]
  cases hat : window.watchings[socket.watch]? with
  | none =>
    refine Or.inl ⟨rfl, fun id watch hother hsame => ?_⟩
    obtain ⟨socket', hsid', hid, -⟩ := h.owns id watch sid hother hsame
    cases hsid.symm.trans hsid'
    cases hat.symm.trans (hid ▸ hother)
  | some watch =>
    simp only
    split
    · next hnot =>
      refine Or.inl ⟨rfl, fun id watch' hother hsame => ?_⟩
      obtain ⟨socket', hsid', hid, -⟩ := h.owns id watch' sid hother hsame
      cases hsid.symm.trans hsid'
      cases hat.symm.trans (hid ▸ hother)
      rcases hnot with hne | hdone
      · exact hne hsame
      · cases (h.stopped id watch hother hdone).1.symm.trans hsame
    · next hcurrent =>
      obtain ⟨hsocket, hdone⟩ := not_or.mp hcurrent
      have hsocket := not_not.mp hsocket
      have hdone := Bool.not_eq_true _ |>.mp hdone
      have hrunning := h.alone socket.watch watch hat hdone
      obtain ⟨watch', shown, hat', -, hshown, hserver, -⟩ := h.running _ hrunning
      cases hat.symm.trans hat'
      refine Or.inr ⟨watch, rfl, hdone, hsocket, hrunning, ?_⟩
      split
      · next hretry =>
        refine Or.inl ⟨hretry.1, hretry.2, ?_⟩
        simp only [Window.sets, Window.begins, Window.close, insert_insert]
      · refine Or.inr ?_
        have hmine :
            (window.sets socket.watch { watch with socket := none }).watchings[socket.watch]? =
            some { watch with socket := none } := (insert_at _ _ _ _).trans (if_pos rfl)
        split
        · rw [finish_running hmine hdone hrunning, without_sets hsocket]
          exact ⟨_, rfl⟩
        · rw [ends_running hmine hdone hrunning, without_sets hsocket]
          · exact ⟨_, rfl⟩
          · simp [Window.shows, Window.sets, hshown, hserver]

theorem over_eq (before after : Window) :
    ∃ wanted, Window.settle before after = { after with wanted := wanted } := by
  unfold Window.settle
  split
  · exact ⟨.nothing, rfl⟩
  · exact ⟨after.wanted, rfl⟩

theorem Sound.settle {after : Window} (h : Sound after) (before : Window) :
    Sound (Window.settle before after) := by
  obtain ⟨wanted, heq⟩ := over_eq before after
  rw [heq]
  exact h.wants wanted

theorem Sound.ask (h : Sound window) (watch : Watching) (target : ℕ) :
    Sound (window.ask watch target) := by
  rcases ask_cases window watch target with ⟨-, heq⟩ | ⟨sid, socket, -, hsid, -, -, heq⟩
  · rw [heq]
    exact h
  · rw [heq]
    exact h.sockets (alike_ask hsid _)

theorem ask_watchings (window : Window) (watch : Watching) (target : ℕ) :
    (window.ask watch target).watchings = window.watchings := by
  rcases ask_cases window watch target with ⟨-, heq⟩ | ⟨sid, socket, -, -, -, -, heq⟩ <;> rw [heq]

theorem Sound.switchTo (h : Sound window) (hat : window.watchings[id]? = some watch)
    (hdone : watch.done = false)
    (target : ℕ) : Sound (window.switchTo id target) := by
  rcases switchTo_cases hat hdone target with ⟨sid, socket, hsid, -, -, heq⟩ | ⟨-, heq⟩
  · rw [heq]
    exact @Sound.reopens window id watch h hat hdone sid hsid { watch.aimed target with
      socket := none } hdone rfl
      ((watch.aimed target).state .connecting (0, 0)) rfl rfl (.connecting id) rfl
  · rw [heq]
    have hat' : (window.ask watch target).watchings[id]? = some watch := by rw [ask_watchings, hat]
    exact @Sound.sets _ id watch (h.ask watch target) hat' hdone (watch.aimed target) hdone rfl
      ((watch.aimed target).state .connecting (0, 0)) rfl rfl

theorem Sound.startWatching (h : Sound window) (options : Options) :
    Sound (window.startWatching options) := by
  have hnew : Sound { window.finishRunning.begins (.checking options) with
      wanted := .waits window.begun } :=
    (h.finishRunning.1.begins options).wants _
  unfold Window.startWatching
  cases hrunning : window.running with
  | none => exact hnew
  | some id =>
    obtain ⟨watch, shown, hat, hdone, hshown, hserver, htarget⟩ := h.running id hrunning
    simp only [hat]
    split
    · have hset := @Sound.sets window id watch h hat hdone { watch with
        place := options.place, who := options.who }
        hdone rfl shown hserver htarget
      rw [← hshown] at hset
      exact (hset.switchTo ((insert_at _ _ _ _).trans (if_pos rfl)) hdone options.target).wants _
    · exact hnew

theorem Sound.checked (h : Sound window) {task : ℕ} {options : Options}
    (htask : window.tasks[task]? = some (.checking options)) (decode : List ScreenCodec) :
    Sound (window.checked task options decode) := by
  have herased := h.erase htask fun id watch hid => by cases hid
  obtain ⟨hfinished, hnone⟩ := herased.finishRunning
  unfold Window.checked
  split
  · have hunshown := (hfinished.unshown hnone
      (some ⟨options.server, options.place, options.who, options.target, .unplayable, (0, 0), false,
        false⟩)).wants
      (if decide (window.wanted = .waits task) then .nothing else window.wanted)
    rw [hnone] at hunshown
    exact hunshown
  · generalize { window with tasks := window.tasks.erase task }.finishRunning =
      next at hfinished hnone
    have hstarted :=
      @Sound.starts next ⟨options.server, options.sessionId, options.target, decode, options.place,
      options.who, none, 0, none, false, false⟩ hfinished hnone rfl rfl
      ⟨options.server, options.place, options.who, options.target, .connecting, (0, 0), false,
        false⟩ rfl rfl
    rw [connect_begins ((insert_at _ _ _ _).trans (if_pos rfl)) rfl]
    exact hstarted.wants _

theorem Sound.stopWatching (h : Sound window) : Sound window.stopWatching :=
  h.finishRunning.1.wants _

theorem Sound.closeEnded (h : Sound window) : Sound window.closeEnded := by
  unfold Window.closeEnded
  split
  · next hnone => exact h.unshown hnone none
  · exact h

/-- What is shown may change, but for whose share it is. -/
theorem Sound.shows (h : Sound window) {change : ScreenWatchState → ScreenWatchState}
    (hserver : ∀ shown, (change shown).server = shown.server)
    (htarget : ∀ shown, (change shown).target = shown.target) :
    Sound { window with shown := window.shown.map change } := by
  refine ⟨h.watched, h.opened, h.begun, fun id hrunning => ?_, h.alone, h.stopped, h.held, h.owns,
    h.tasks, h.apart, h.busy⟩
  obtain ⟨watch, shown, hat, hdone, hshown, hsame, hsame'⟩ := h.running id hrunning
  refine ⟨watch, change shown, hat, hdone, congrArg (Option.map change) hshown, ?_, ?_⟩
  · exact (hserver shown).trans hsame
  · exact (htarget shown).trans hsame'

theorem Sound.awaitNext (h : Sound window) : Sound window.awaitNext := by
  apply h.shows
  · intro shown
    split <;> rfl
  · intro shown
    split <;> rfl

theorem Sound.watchNext (h : Sound window) (server sessionId target : ℕ) :
    Sound (window.watchNext server sessionId target) := by
  unfold Window.watchNext
  cases hshown : window.shown with
  | none => exact h
  | some shown =>
    simp only
    split
    · have hset :=
        @Sound.shows window h ({ · with awaitsNext := false }) (fun _ => rfl) (fun _ => rfl)
      rw [hshown] at hset
      exact hset.startWatching _
    · exact h

/-- A token that came opens a socket, and one that did not ends the watch. -/
theorem Sound.token (h : Sound window) {task : ℕ}
    (htask : window.tasks[task]? = some (.connecting id)) (got : Bool) :
    Sound (if got then Window.open_ { window with tasks := window.tasks.erase task } id
      else window.settle
        (Window.ends { window with tasks := window.tasks.erase task } id .ended)) := by
  obtain ⟨watch, hat, -⟩ := h.tasks task _ htask id rfl
  split
  · unfold Window.open_
    simp only [hat]
    split
    · next hdone =>
      apply h.erase htask
      intro id' watch' hid hat'
      cases hid
      cases hat.symm.trans hat'
      exact hdone
    · next hdone => exact h.opens hat (Bool.not_eq_true _ |>.mp hdone) htask rfl watch.target
  · apply Sound.settle
    rcases ends_cases h (window.tasks.erase task) id .ended with
      ⟨heq, hnot⟩ | ⟨watch', shown, hat', hdone, -, heq⟩
    · rw [heq]
      apply h.erase htask
      intro id' watch' hid hat'
      cases hid
      exact over_of_not_running h hnot hat'
    · rw [heq]
      have hwithout := h.without hat' hdone shown
      rw [without_eq] at hwithout ⊢
      apply hwithout.erase htask
      intro id' watch' hid hat'
      cases hid
      have hset := (insert_at _ _ _ _).symm.trans hat'
      rw [if_pos rfl] at hset
      cases hset
      rfl

theorem Sound.retries (h : Sound window) {task : ℕ}
    (htask : window.tasks[task]? = some (.retrying id)) :
    Sound (Window.connect { window with tasks := window.tasks.erase task } id) := by
  obtain ⟨watch, hat, -⟩ := h.tasks task _ htask id rfl
  unfold Window.connect
  simp only [hat]
  split
  · next hdone =>
    apply h.erase htask
    intro id' watch' hid hat'
    cases hid
    cases hat.symm.trans hat'
    exact hdone
  · exact h.turns_task htask rfl

theorem Sound.turns (h : Sound window) {sid : ℕ} {socket : Socket}
    (hsid : window.sockets[sid]? = some socket)
    {ready : ReadyState} (hopen : socket.ready ≠ .closed) (hready : ready ≠ .closed) :
    Sound (window.turns sid socket ready) := by
  apply h.sockets
  apply alike_insert hsid
  exact Prod.ext rfl ((decide_eq_false hready).trans (decide_eq_false hopen).symm)

/-- A socket that is nobody's is closed. -/
theorem Sound.shuts (h : Sound window) {sid : ℕ} (hnone : ∀ (id : ℕ) (watch : Watching),
    window.watchings[id]? = some watch → watch.socket ≠ some sid) :
      Sound (window.close (some sid)) := by
  apply h.sockets
  intro other
  rw [modify_at]
  split
  · next heq =>
    rw [heq, Option.map_map]
    cases hsid : window.sockets[sid]? with
    | none => rfl
    | some socket =>
      have hclosed : socket.ready = .closed := by
        by_contra hready
        obtain ⟨watch, hat, hsocket⟩ := h.held sid socket hsid hready
        exact hnone _ watch hat hsocket
      simp [Socket.held, hclosed]
  · rfl

theorem Sound.closed (h : Sound window) {sid : ℕ} {socket : Socket}
    (hsid : window.sockets[sid]? = some socket)
    (why : ScreenClosing) : Sound ((window.closed sid why).close (some sid)) := by
  rcases closed_cases h hsid why with ⟨heq, hnone⟩ | ⟨watch, hat, hdone, hsocket, hrunning, hgone⟩
  · rw [heq]
    exact h.shuts hnone
  · rcases hgone with ⟨-, -, heq⟩ | ⟨shown, heq⟩
    · rw [heq]
      obtain ⟨watch', shown, hat', -, hshown, hserver, htarget⟩ := h.running _ hrunning
      cases hat.symm.trans hat'
      have hreopened := @Sound.reopens window socket.watch watch h hat hdone sid hsocket
        { watch with
          socket := none, attempts := watch.attempts + 1 } hdone rfl shown hserver htarget
        (.retrying socket.watch) rfl
      rw [← hshown] at hreopened
      exact hreopened
    · rw [heq]
      exact h.without hat hdone shown

theorem hears_held {socket heard : Socket} {said : Said} (h : socket.hears said = some heard) :
    heard.held = socket.held := by
  cases said with
  | behind =>
    cases h
    rfl
  | showing target codec answer =>
    cases answer with
    | false =>
      obtain ⟨-, h⟩ := Option.ite_none_right_eq_some.mp h
      cases h
      rfl
    | true =>
      simp only [Socket.hears] at h
      split at h
      · cases h
      · obtain ⟨-, h⟩ := Option.ite_none_right_eq_some.mp h
        cases h
        rfl

/-- The running watch does what the server's words ask. -/
theorem Sound.said (h : Sound window) (hat : window.watchings[id]? = some watch)
    (hdone : watch.done = false)
    (said : Said) : Sound (window.said id watch said) := by
  obtain ⟨watch', shown, hat', -, hshown, hserver, htarget⟩ :=
    h.running id (h.alone id watch hat hdone)
  cases hat.symm.trans hat'
  cases said with
  | behind =>
    have hset :=
      @Sound.sets window id watch h hat hdone { watch with behindTimer := true } hdone rfl
      { shown with behind := true } hserver htarget
    have hshows : window.shows watch = true := by simp [Window.shows, hshown, hserver]
    simp only [Window.said, hshows, if_true, hshown, Option.map_some]
    exact hset
  | showing target codec answer =>
    cases target with
    | none =>
      have hset := @Sound.sets window id watch h hat hdone { watch with
        attempts := 0, codec := none } hdone rfl
        { shown with status := .ended } hserver htarget
      simp only [Window.said, hshown, Option.map_some]
      exact hset
    | some target =>
      cases codec with
      | none =>
        exact @Sound.sets window id watch h hat hdone { watch with
          attempts := 0, target := target, codec := none }
          hdone rfl _ rfl rfl
      | some codec =>
        have hset := fun shown => @Sound.sets window id watch h hat hdone
          { watch with attempts := 0, target := target, codec := some codec } hdone rfl shown
        simp only [Window.said, hshown, Option.any_some]
        split
        · next hsame =>
          have hsame := of_decide_eq_true hsame
          exact hset shown hserver hsame.1
        · exact hset _ rfl rfl

theorem Sound.givesUp (h : Sound window) (hat : window.watchings[id]? = some watch)
    (hdone : watch.done = false)
    (codec : ScreenCodec) : Sound (window.givesUp id watch codec) := by
  obtain ⟨watch', shown, hat', -, hshown, hserver, htarget⟩ :=
    h.running id (h.alone id watch hat hdone)
  cases hat.symm.trans hat'
  have hset := @Sound.sets window id watch h hat hdone
    { watch with
      decode := watch.decode.filter (· ≠ codec), codec := none } hdone rfl shown hserver htarget
  rw [← hshown] at hset
  exact hset.ask _ _

theorem Sound.behindEnds (h : Sound window) (hat : window.watchings[id]? = some watch)
    (htimer : watch.behindTimer = true) :
    Sound { window.sets id { watch with behindTimer := false } with
      shown :=
        if ¬ watch.done ∧ window.shows watch then window.shown.map ({ · with behind := false })
        else window.shown } := by
  have hdone : watch.done = false := by
    apply Bool.not_eq_true _ |>.mp
    intro hdone
    cases htimer.symm.trans (h.stopped id watch hat hdone).2
  obtain ⟨watch', shown, hat', -, hshown, hserver, htarget⟩ :=
    h.running id (h.alone id watch hat hdone)
  cases hat.symm.trans hat'
  have hset := fun shown =>
    @Sound.sets window id watch h hat hdone { watch with behindTimer := false } hdone rfl shown
  rw [hshown]
  split
  · exact hset { shown with behind := false } hserver htarget
  · exact hset shown hserver htarget

theorem Sound.picture (h : Sound window) (size : ℕ × ℕ) : Sound (window.picture size) := by
  apply h.shows
  · intro shown
    split <;> rfl
  · intro shown
    split <;> rfl

/-- Whatever happens. -/
theorem Sound.step (h : Sound window) {event : Event} {next : Window}
    (hs : window.step event = some next) :
    Sound next := by
  cases event with
  | startWatching options =>
    cases hs
    exact h.startWatching options
  | checked task decode =>
    simp only [Window.step] at hs
    split at hs
    · next options htask =>
      cases hs
      exact h.checked htask decode
    · cases hs
  | stopWatching =>
    cases hs
    exact h.stopWatching
  | closes =>
    cases hs
    exact h.stopWatching.closeEnded
  | awaitNext =>
    cases hs
    exact h.awaitNext
  | watchNext server sessionId target =>
    cases hs
    exact h.watchNext server sessionId target
  | token task got =>
    simp only [Window.step] at hs
    split at hs
    · next id htask =>
      obtain rfl := Option.some.inj hs
      exact h.token htask got
    · cases hs
  | retries task =>
    simp only [Window.step] at hs
    split at hs
    · next id htask =>
      cases hs
      exact h.retries htask
    · cases hs
  | opens sid =>
    obtain ⟨socket, hsid, hs⟩ := Option.bind_eq_some_iff.mp hs
    obtain ⟨hready, hs⟩ := Option.ite_none_right_eq_some.mp hs
    cases hs
    exact h.turns hsid (by rw [hready]; decide) (by decide)
  | closing sid =>
    obtain ⟨socket, hsid, hs⟩ := Option.bind_eq_some_iff.mp hs
    obtain ⟨hready, hs⟩ := Option.ite_none_right_eq_some.mp hs
    cases hs
    apply h.turns hsid
    · rcases hready with hready | hready <;> rw [hready] <;> decide
    · decide
  | closed sid why =>
    obtain ⟨socket, hsid, hs⟩ := Option.bind_eq_some_iff.mp hs
    obtain ⟨-, hs⟩ := Option.ite_none_right_eq_some.mp hs
    cases hs
    exact (h.closed hsid why).settle window
  | silent sid =>
    obtain ⟨socket, hsid, hs⟩ := Option.map_eq_some_iff.mp hs
    cases hs
    exact (h.closed hsid .dropped).settle window
  | said sid said =>
    obtain ⟨socket, hsid, hs⟩ := Option.bind_eq_some_iff.mp hs
    obtain ⟨-, hs⟩ := Option.ite_none_right_eq_some.mp hs
    obtain ⟨heard, hheard, hs⟩ := Option.bind_eq_some_iff.mp hs
    obtain ⟨watch, hat, hs⟩ := Option.map_eq_some_iff.mp hs
    obtain rfl := hs
    -- A socket that has heard something is as it was for all that the watches hold of it.
    have hsockets := h.sockets (alike_insert hsid (hears_held hheard))
    split
    · next hsocket =>
      apply hsockets.said hat
      -- A watch that is over has let go of its socket.
      apply Bool.not_eq_true _ |>.mp
      intro hdone
      cases (h.stopped _ watch hat hdone).1.symm.trans hsocket
    · exact hsockets
  | givesUp id =>
    obtain ⟨watch, hat, hs⟩ := Option.bind_eq_some_iff.mp hs
    split at hs
    · cases hs
      exact h
    · next hdone =>
      obtain ⟨codec, -, hs⟩ := Option.map_eq_some_iff.mp hs
      cases hs
      exact h.givesUp hat (Bool.not_eq_true _ |>.mp hdone) codec
  | picture id size =>
    obtain ⟨watch, hat, hs⟩ := Option.bind_eq_some_iff.mp hs
    split at hs
    · cases hs
      exact h
    · obtain ⟨codec, -, hs⟩ := Option.map_eq_some_iff.mp hs
      cases hs
      exact h.picture size
  | behindEnds id =>
    obtain ⟨watch, hat, hs⟩ := Option.bind_eq_some_iff.mp hs
    obtain ⟨htimer, hs⟩ := Option.ite_none_right_eq_some.mp hs
    cases hs
    exact h.behindEnds hat htimer

theorem sound_new : Sound .new := by
  refine ⟨fun id _ => by simp [Window.new], fun sid _ => by simp [Window.new],
    fun task _ => by simp [Window.new], fun id hrunning => (by cases hrunning),
    fun id watch hat => ?_, fun id watch hat => ?_, fun sid socket hat => ?_,
    fun id watch sid hat => ?_, all_empty, fun i j task other id hi => ?_, fun id watch hat => ?_⟩
  · simp [Window.new] at hat
  · simp [Window.new] at hat
  · simp [Window.new] at hat
  · simp [Window.new] at hat
  · simp [Window.new] at hi
  · simp [Window.new] at hat

/-- What a watch that is not running does changes neither what is watched nor what is shown. -/
structure Frame (window next : Window) : Prop where
  shown : next.shown = window.shown
  running : next.running = window.running
  watchings : next.watchings = window.watchings
  wanted : next.wanted = window.wanted
  sockets : ∀ (sid : ℕ) (socket : Socket), window.sockets[sid]? = some socket →
    socket.ready ≠ .closed → next.sockets[sid]? = some socket
  tasks : ∀ (task : ℕ) (waiting : Task), window.tasks[task]? = some waiting → waiting.watch = none →
    next.tasks[task]? = some waiting

theorem frame_erase {task : ℕ} {waiting : Task} (htask : window.tasks[task]? = some waiting)
    (hwatch : waiting.watch = some id) :
    Frame window { window with tasks := window.tasks.erase task } := by
  refine ⟨rfl, rfl, rfl, rfl, fun _ _ hat _ => hat, fun other waiting' hother hnone => ?_⟩
  refine (erase_at _ _ _).trans ((if_neg ?_).trans hother)
  rintro rfl
  cases htask.symm.trans hother
  cases hwatch.symm.trans hnone

theorem frame_insert {sid : ℕ} {socket : Socket} (hsid : window.sockets[sid]? = some socket)
    (hclosed : socket.ready = .closed) (socket' : Socket) :
    Frame window { window with sockets := window.sockets.insert sid socket' } := by
  refine ⟨rfl, rfl, rfl, rfl, fun other socket'' hother hready => ?_, fun _ _ hat _ => hat⟩
  refine (insert_at _ _ _ _).trans ((if_neg ?_).trans hother)
  rintro rfl
  cases hsid.symm.trans hother
  exact hready hclosed

/-- Its sockets are closed. -/
theorem closed_of_not_running (h : Sound window) {sid : ℕ} {socket : Socket}
    (hsid : window.sockets[sid]? = some socket) (hnot : window.running ≠ some socket.watch) :
    socket.ready = .closed ∧ ∀ (id : ℕ) (watch : Watching), window.watchings[id]? = some watch →
      watch.socket ≠ some sid := by
  have hnone : ∀ (id : ℕ) (watch : Watching), window.watchings[id]? = some watch →
      watch.socket ≠ some sid := by
    intro id watch hat hsocket
    obtain ⟨socket', hsid', hid, -⟩ := h.owns id watch sid hat hsocket
    cases hsid.symm.trans hsid'
    have hdone := over_of_not_running h (hid ▸ hnot) hat
    cases (h.stopped id watch hat hdone).1.symm.trans hsocket
  refine ⟨?_, hnone⟩
  by_contra hready
  obtain ⟨watch, hat, hsocket⟩ := h.held sid socket hsid hready
  exact hnone _ watch hat hsocket

theorem frame_closed (h : Sound window) {sid : ℕ} {socket : Socket}
    (hsid : window.sockets[sid]? = some socket)
    (hnot : window.running ≠ some socket.watch) (why : ScreenClosing) :
    Frame window (window.settle ((window.closed sid why).close (some sid))) := by
  have hclosed := (closed_of_not_running h hsid hnot).1
  rcases closed_cases h hsid why with ⟨heq, -⟩ | ⟨watch, -, -, -, hrunning, -⟩
  -- The socket was closed before, so closing it changes nothing another watch has.
  · rw [heq]
    have hframe : Frame window (window.close (some sid)) := by
      refine ⟨rfl, rfl, rfl, rfl, fun other socket' hother hready => ?_, fun _ _ hat _ => hat⟩
      refine (close_at _ _ _).trans ((if_neg ?_).trans hother)
      intro heq
      cases heq
      cases hsid.symm.trans hother
      exact hready hclosed
    unfold Window.settle
    split
    · next hrunning hnone _ => cases hrunning.symm.trans hnone
    · exact hframe
  · exact absurd hrunning hnot

theorem frame_refl (window : Window) : Frame window window :=
  ⟨rfl, rfl, rfl, rfl, fun _ _ hat _ => hat, fun _ _ hat _ => hat⟩

theorem over_of_frame {next : Window} (h : Frame window next) : window.settle next = next := by
  unfold Window.settle
  split
  · next hrunning hnone _ =>
    rw [h.running, hrunning] at hnone
    cases hnone
  · rfl

/-- A watch another one replaced changes nothing that is shown, whatever happens to it. -/
theorem frame_step (h : Sound window) {event : Event} {next : Window}
    (hs : window.step event = some next)
    (hid : event.watch window = some id) (hnot : window.running ≠ some id) : Frame window next := by
  cases event with
  -- presses, and what the screen does: no watch's
  | startWatching options => cases hid
  | checked task decode => cases hid
  | stopWatching => cases hid
  | closes => cases hid
  | awaitNext => cases hid
  | watchNext server sessionId target => cases hid
  | token task got =>
    simp only [Window.step] at hs
    split at hs
    · next other htask =>
      simp only [Event.watch, htask, Option.bind_some, Task.watch] at hid
      cases hid
      obtain ⟨watch, hat, -⟩ := h.tasks task _ htask id rfl
      -- A watch that is over starts nothing: only its task goes.
      have hdone := over_of_not_running h hnot hat
      have hframe := frame_erase htask (show Task.watch (.connecting id) = some id from rfl)
      obtain rfl := Option.some.inj hs
      split
      · simp only [Window.open_, hat, hdone, if_true]
        exact hframe
      · rcases ends_cases h (window.tasks.erase task) id .ended with
          ⟨heq, -⟩ | ⟨_, _, _, _, hrunning, _⟩
        · rw [heq, over_of_frame hframe]
          exact hframe
        · exact absurd hrunning hnot
    · cases hs
  | retries task =>
    simp only [Window.step] at hs
    split at hs
    · next other htask =>
      simp only [Event.watch, htask, Option.bind_some, Task.watch] at hid
      cases hid
      obtain ⟨watch, hat, -⟩ := h.tasks task _ htask id rfl
      have hdone := over_of_not_running h hnot hat
      have hframe := frame_erase htask (show Task.watch (.retrying id) = some id from rfl)
      obtain rfl := Option.some.inj hs
      simp only [Window.connect, hat, hdone, if_true]
      exact hframe
    · cases hs
  -- A socket of a watch that is over is closed, so it neither opens nor closes again.
  | opens sid =>
    obtain ⟨socket, hsid, hs⟩ := Option.bind_eq_some_iff.mp hs
    simp only [Event.watch, hsid, Option.map_some, Option.some.injEq] at hid
    obtain ⟨hready, -⟩ := Option.ite_none_right_eq_some.mp hs
    cases hready.symm.trans (closed_of_not_running h hsid (hid ▸ hnot)).1
  | closing sid =>
    obtain ⟨socket, hsid, hs⟩ := Option.bind_eq_some_iff.mp hs
    simp only [Event.watch, hsid, Option.map_some, Option.some.injEq] at hid
    obtain ⟨hready, -⟩ := Option.ite_none_right_eq_some.mp hs
    have hclosed := (closed_of_not_running h hsid (hid ▸ hnot)).1
    rcases hready with hready | hready <;> cases hready.symm.trans hclosed
  | closed sid why =>
    obtain ⟨socket, hsid, hs⟩ := Option.bind_eq_some_iff.mp hs
    simp only [Event.watch, hsid, Option.map_some, Option.some.injEq] at hid
    obtain ⟨-, hs⟩ := Option.ite_none_right_eq_some.mp hs
    cases hs
    exact frame_closed h hsid (hid ▸ hnot) why
  | silent sid =>
    obtain ⟨socket, hsid, hs⟩ := Option.map_eq_some_iff.mp hs
    simp only [Event.watch, hsid, Option.map_some, Option.some.injEq] at hid
    cases hs
    exact frame_closed h hsid (hid ▸ hnot) .dropped
  | said sid said =>
    obtain ⟨socket, hsid, hs⟩ := Option.bind_eq_some_iff.mp hs
    simp only [Event.watch, hsid, Option.map_some, Option.some.injEq] at hid
    obtain ⟨-, hs⟩ := Option.ite_none_right_eq_some.mp hs
    obtain ⟨heard, hheard, hs⟩ := Option.bind_eq_some_iff.mp hs
    obtain ⟨watch, hat, hs⟩ := Option.map_eq_some_iff.mp hs
    obtain rfl := hs
    obtain ⟨hclosed, hnone⟩ := closed_of_not_running h hsid (hid ▸ hnot)
    -- Its watch has no socket any more, so what it says is not heard.
    rw [if_neg (hnone _ watch hat)]
    exact frame_insert hsid hclosed heard
  | givesUp other =>
    cases hid
    obtain ⟨watch, hat, hs⟩ := Option.bind_eq_some_iff.mp hs
    rw [if_pos (over_of_not_running h hnot hat)] at hs
    cases hs
    exact frame_refl window
  | picture other size =>
    cases hid
    obtain ⟨watch, hat, hs⟩ := Option.bind_eq_some_iff.mp hs
    rw [if_pos (over_of_not_running h hnot hat)] at hs
    cases hs
    exact frame_refl window
  | behindEnds other =>
    cases hid
    obtain ⟨watch, hat, hs⟩ := Option.bind_eq_some_iff.mp hs
    obtain ⟨htimer, -⟩ := Option.ite_none_right_eq_some.mp hs
    cases htimer.symm.trans (h.stopped id watch hat (over_of_not_running h hnot hat)).2

end Steps

end Linger.ScreenWatch
