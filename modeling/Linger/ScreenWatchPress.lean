import Linger.ScreenWatchSteps

/-! In a run where no start's checks are answered once the last press waits for none, and no word
about an earlier share is the last one heard, what is watched is what the last press asked for. -/
namespace Linger.ScreenWatch
open FiniteMap StepMachine TaskPool
open Screens (ScreenCodec)

/-- The watch, if it is the one running, is for the share the last press named. -/
def OnTarget (window : Window) (id : ℕ) : Prop :=
  match window.wanted with
  | .watches options =>
    window.running = some id → ∀ watch ∈ window.watchings[id]?, watch.target = options.target
  | _ => True

/-- The socket's close is one its watch tries again after. -/
def Retries (window : Window) (sid : ℕ) (socket : Socket) : Prop :=
  ∃ watch ∈ window.watchings[socket.watch]?, watch.socket = some sid ∧ watch.attempts < retries

/-- Whoever's checks are answered, the last press still waits for its own. And when a socket is
opened again or a share asked for again, or the last share asked for has ended, the running watch is
for the share the last press named: no word about one before it was the last to come. -/
def Allowed (window : Window) : Event → Prop
  | .checked _ _ => ∃ task, window.wanted = .waits task
  | .closed sid .dropped | .silent sid =>
    ∀ socket ∈ window.sockets[sid]?, Retries window sid socket → OnTarget window socket.watch
  | .said sid (.showing none _ true) =>
    ∀ socket ∈ window.sockets[sid]?, socket.asks.length = 1 → OnTarget window socket.watch
  | .givesUp id =>
    ∀ watch ∈ window.watchings[id]?, (window.asking watch).isSome → OnTarget window id
  | _ => True

/-- Nothing is in flight. -/
structure Quiet (window : Window) : Prop where
  tasks : vals window.tasks = []
  sockets : ∀ socket ∈ vals window.sockets, (socket.ready = .opened ∧ socket.asks = []) ∨
    socket.ready = .closed

/-- At most one socket is open. -/
def OneOpen (window : Window) : Prop := ∀ (sid sid' : ℕ) (socket socket' : Socket),
  window.sockets[sid]? = some socket → window.sockets[sid']? = some socket' →
    socket.ready = .opened → socket'.ready = .opened → sid = sid'

/-- The watch running, on a socket of its own, is for the share the last press named, and the screen
says so; there is none after a stop, and an open socket names what is shown. -/
structure Settled (window : Window) : Prop where
  stopped : window.wanted = .nothing → window.running = none
  checked : ∀ task, window.wanted ≠ .waits task
  watches : ∀ options, window.wanted = .watches options →
    ∃ id watch sid socket, window.running = some id ∧
    window.watchings[id]? = some watch ∧ watch.server = options.server ∧
    watch.sessionId = options.sessionId ∧
    watch.target = options.target ∧ watch.socket = some sid ∧ window.sockets[sid]? = some socket ∧
    socket.ready = .opened
  shown : ∀ (sid : ℕ) (socket : Socket), window.sockets[sid]? = some socket →
    socket.ready = .opened → ∃ shown, window.shown = some shown ∧ shown.target = socket.names

/-- Where the running watch's words and asks lead. -/
structure Aligned (window : Window) (watch : Watching) (target : ℕ) : Prop where
  waits : watch.socket = none → watch.target = target
  socket : ∀ (sid : ℕ) (socket : Socket), watch.socket = some sid →
    window.sockets[sid]? = some socket →
    socket.ready = .closing ∨ (socket.names = target ∧ (socket.asks = [] → watch.target = target))

def Watches (window : Window) (options : Options) : Prop := ∃ id watch, window.running = some id ∧
  window.watchings[id]? = some watch ∧ watch.server = options.server ∧
  watch.sessionId = options.sessionId ∧ Aligned window watch options.target

/-- The last press's checks are on their way, or its watch runs. -/
def Follows (window : Window) : Prop :=
  match window.wanted with
  | .nothing => window.running = none
  | .waits task => ∃ options, window.tasks[task]? = some (.checking options)
  | .watches options => Watches window options

section Steps
variable {window next : Window} {id : ℕ} {watch : Watching}

/-- A step that leaves the press as it was, and its checks if it waits for them. -/
theorem follows_of (h : Follows window) (hwanted : next.wanted = window.wanted)
    (htasks : ∀ task options, window.wanted = .waits task →
      window.tasks[task]? = some (.checking options) → next.tasks[task]? = some (.checking options))
    (hnone : window.running = none → next.running = none)
    (hwatches : ∀ options, window.wanted = .watches options → Watches window options →
      Watches next options) :
    Follows next := by
  unfold Follows at h ⊢
  rw [hwanted]
  cases hold : window.wanted with
  | nothing =>
    rw [hold] at h
    exact hnone h
  | waits task =>
    rw [hold] at h
    obtain ⟨options, htask⟩ := h
    exact ⟨options, htasks task options hold htask⟩
  | watches options =>
    rw [hold] at h
    exact hwatches options hold h

theorem Follows.watches (h : Follows window) {options : Options}
    (hwanted : window.wanted = .watches options) :
    Watches window options := by
  simp only [Follows, hwanted] at h
  exact h

theorem follows_frame (hsound : Sound window) (h : Follows window) (hframe : Frame window next) :
    Follows next := by
  refine follows_of h hframe.wanted (fun task options _ htask => hframe.tasks task _ htask rfl)
    (fun hnone => hframe.running.trans hnone) ?_
  rintro options - ⟨id, watch, hrunning, hat, hserver, hsession, halign⟩
  refine ⟨id, watch, hframe.running.trans hrunning, (congrArg (·[id]?) hframe.watchings).trans hat,
    hserver, hsession, halign.waits, fun sid socket hsid hsocket => ?_⟩
  obtain ⟨socket', hat', -, hready⟩ := hsound.owns id watch sid hat hsid
  cases (hframe.sockets sid socket' hat' hready).symm.trans hsocket
  exact halign.socket sid socket hsid hat'

/-- The running watch goes on. -/
theorem follows_sets (h : Follows window) (hat : window.watchings[id]? = some watch)
    (hrunning : window.running = some id) {watch' : Watching}
    (hserver : watch'.server = watch.server)
    (hsession : watch'.sessionId = watch.sessionId) (hwanted : next.wanted = window.wanted)
    (htasks : ∀ task options, window.wanted = .waits task →
      window.tasks[task]? = some (.checking options) → next.tasks[task]? = some (.checking options))
    (hnext : next.running = some id) (hat' : next.watchings[id]? = some watch')
    (halign : ∀ options, window.wanted = .watches options → Aligned window watch options.target →
      Aligned next watch' options.target) : Follows next := by
  refine follows_of h hwanted htasks (fun hnone => (by cases hnone.symm.trans hrunning)) ?_
  rintro options hwatches ⟨id', watch'', hrunning', hat'', hserver', hsession', hold⟩
  cases hrunning.symm.trans hrunning'
  cases hat.symm.trans hat''
  exact ⟨id, watch', hnext, hat', hserver.trans hserver', hsession.trans hsession',
    halign options hwatches hold⟩

/-- The running watch ends by itself. -/
theorem follows_over (h : Follows window) (hrunning : window.running = some id) {after : Window}
    (hnone : after.running = none) (hwanted : after.wanted = window.wanted)
    (htasks : ∀ task options, window.wanted = .waits task →
      window.tasks[task]? = some (.checking options) →
      after.tasks[task]? = some (.checking options)) : Follows (window.settle after) := by
  unfold Window.settle
  cases hold : window.wanted with
  | nothing =>
    simp only [Follows, hold] at h
    cases h.symm.trans hrunning
  | waits task =>
    simp only [hrunning, hnone]
    refine follows_of h hwanted htasks (fun hnone' => (by cases hnone'.symm.trans hrunning)) ?_
    intro options hwatches
    cases hold.symm.trans hwatches
  | watches options =>
    simp only [hrunning, hnone]
    exact rfl

theorem over_of_running {after : Window} (hrunning : after.running = some id) :
    window.settle after = after := by
  unfold Window.settle
  split
  · next hnone _ => cases hrunning.symm.trans hnone
  · rfl

/-- A socket's words move on by one ask at most, and what was asked last stays. -/
theorem hears_names {socket heard : Socket} {said : Said} (h : socket.hears said = some heard) :
    heard.names = socket.names ∧ heard.ready = socket.ready := by
  cases said with
  | behind =>
    cases h
    exact ⟨rfl, rfl⟩
  | showing target codec answer =>
    cases answer with
    | false =>
      obtain ⟨-, h⟩ := Option.ite_none_right_eq_some.mp h
      cases h
      exact ⟨rfl, rfl⟩
    | true =>
      simp only [Socket.hears] at h
      split at h
      · cases h
      · next ask asks hasks =>
        obtain ⟨-, h⟩ := Option.ite_none_right_eq_some.mp h
        cases h
        refine ⟨?_, rfl⟩
        simp [Socket.names, hasks, List.getLast?_cons]

theorem names_ask (socket : Socket) (target : ℕ) :
    Socket.names { socket with asks := socket.asks ++ [target] } = target := by
  simp [Socket.names]

theorem names_nil {socket : Socket} (h : socket.asks = []) : socket.names = socket.about := by
  simp [Socket.names, h]

theorem ask_running (window : Window) (watch : Watching) (target : ℕ) :
    (window.ask watch target).running = window.running ∧
    (window.ask watch target).tasks = window.tasks ∧
    (window.ask watch target).wanted = window.wanted := by
  rcases ask_cases window watch target with
    ⟨-, heq⟩ | ⟨sid, socket, -, -, -, -, heq⟩ <;> rw [heq] <;> exact ⟨rfl, rfl, rfl⟩

/-- Where its own socket is open, it is asked. -/
theorem aligned_ask
    (hnot : ∀ sid socket, watch.socket = some sid → window.sockets[sid]? = some socket →
      socket.ready ≠ .connecting ∧ socket.ready ≠ .closed) {watch' : Watching} (hsocket :
        watch'.socket = watch.socket)
    (hsockets : next.sockets = (window.ask watch watch'.target).sockets) :
      Aligned next watch' watch'.target := by
  refine ⟨fun _ => rfl, fun sid socket hsid hat => ?_⟩
  rw [hsocket] at hsid
  rcases ask_cases window watch watch'.target with
    ⟨hnone, heq⟩ | ⟨sid', socket', hsid', hat', -, -, heq⟩
  · rw [hsockets, heq] at hat
    obtain ⟨hconnecting, hclosed⟩ := hnot sid socket hsid hat
    cases hready : socket.ready with
    | connecting => exact absurd hready hconnecting
    | opened => simp [Window.asking, hsid, hat, hready] at hnone
    | closing => exact Or.inl rfl
    | closed => exact absurd hready hclosed
  · cases hsid.symm.trans hsid'
    rw [hsockets, heq, insert_at, if_pos rfl] at hat
    cases hat
    exact Or.inr ⟨names_ask _ _, fun _ => rfl⟩

theorem not_closed (hsound : Sound window) (hat : window.watchings[id]? = some watch) {sid : ℕ}
    {socket : Socket}
    (hsid : watch.socket = some sid) (hsocket : window.sockets[sid]? = some socket) :
    socket.ready ≠ .closed := by
  obtain ⟨socket', hat', -, hready⟩ := hsound.owns id watch sid hat hsid
  cases hsocket.symm.trans hat'
  exact hready

/-- Switched, the running watch is for the share named. -/
theorem watches_switchTo (hsound : Sound window) (hat : window.watchings[id]? = some watch)
    (hdone : watch.done = false)
    {options : Options} (hserver : watch.server = options.server)
    (hsession : watch.sessionId = options.sessionId) :
    Watches (window.switchTo id options.target) options := by
  have hrunning := hsound.alone id watch hat hdone
  rcases switchTo_cases hat hdone options.target with ⟨sid, socket, -, -, -, heq⟩ | ⟨hnot, heq⟩
  · rw [heq]
    refine ⟨id, _, hrunning, (insert_at _ _ _ _).trans (if_pos rfl), hserver, hsession,
      fun _ => rfl, ?_⟩
    intro sid' socket' hsid'
    cases hsid'
  · rw [heq]
    refine ⟨id, watch.aimed options.target,
      (ask_running window watch options.target).1.trans hrunning,
      (insert_at _ _ _ _).trans (if_pos rfl), hserver, hsession, ?_⟩
    refine aligned_ask (fun sid socket hsid hsocket => ⟨hnot sid socket hsid hsocket, ?_⟩) rfl rfl
    exact not_closed hsound hat hsid hsocket

/-- A press is followed by its checks, or by the watch it switches. -/
theorem follows_startWatching (hsound : Sound window) (options : Options) :
    Follows (window.startWatching options) := by
  have hnew : Follows { window.finishRunning.begins (.checking options) with
      wanted := .waits window.begun } := by
    have hbegun : window.finishRunning.begun = window.begun := by
      rcases finishRunning_cases hsound with ⟨heq, -⟩ | ⟨id, watch, shown, -, -, -, heq⟩
      · rw [heq]
      · rw [heq, without_eq]
    refine ⟨options, ?_⟩
    rw [← hbegun]
    exact (insert_at _ _ _ _).trans (if_pos rfl)
  unfold Window.startWatching
  cases hrunning : window.running with
  | none => exact hnew
  | some id =>
    obtain ⟨watch, shown, hat, hdone, hshown, hserver, htarget⟩ := hsound.running id hrunning
    simp only [hat]
    split
    · next hsame =>
      have hset := @Sound.sets window id watch hsound hat hdone
        { watch with place := options.place, who := options.who } hdone rfl shown hserver htarget
      rw [← hshown] at hset
      obtain ⟨id', watch', hrunning', hat', hserver', hsession', halign⟩ :=
        watches_switchTo hset ((insert_at _ _ _ _).trans (if_pos rfl)) hdone hsame.1 hsame.2
      exact ⟨id', watch', hrunning', hat', hserver', hsession', halign.waits, halign.socket⟩
    · exact hnew

theorem follows_watchNext (hsound : Sound window) (h : Follows window)
    (server sessionId target : ℕ) :
    Follows (window.watchNext server sessionId target) := by
  unfold Window.watchNext
  cases hshown : window.shown with
  | none => exact h
  | some shown =>
    simp only
    split
    · have hset :=
        @Sound.shows window hsound ({ · with awaitsNext := false }) (fun _ => rfl) (fun _ => rfl)
      rw [hshown] at hset
      exact follows_startWatching hset _
    · exact h

/-- The last press still waits for its checks, or they are the ones answered. -/
theorem follows_checked (hsound : Sound window) (h : Follows window) {task : ℕ} {options : Options}
    (htask : window.tasks[task]? = some (.checking options)) (decode : List ScreenCodec)
    (hallowed : ∃ task, window.wanted = .waits task) :
    Follows (window.checked task options decode) := by
  obtain ⟨last, hlast⟩ := hallowed
  have herased := hsound.erase htask fun id watch hid => by cases hid
  obtain ⟨hfinished, hnone⟩ := herased.finishRunning
  have htasks : (Window.finishRunning { window with tasks := window.tasks.erase task }).tasks =
      window.tasks.erase task ∧
      (Window.finishRunning { window with tasks := window.tasks.erase task }).begun =
        window.begun := by
    rcases finishRunning_cases herased with ⟨heq, -⟩ | ⟨id, watch, shown, -, -, -, heq⟩
    · rw [heq]
      exact ⟨rfl, rfl⟩
    · rw [heq, without_eq]
      exact ⟨rfl, rfl⟩
  simp only [Follows, hlast] at h
  obtain ⟨asked, hasked⟩ := h
  have hbegun : last ≠ window.begun := by
    rintro rfl
    rw [hsound.begun window.begun le_rfl] at hasked
    cases hasked
  unfold Window.checked
  generalize Window.finishRunning { window with tasks := window.tasks.erase task } =
    finished at hfinished hnone htasks
  by_cases hmine : last = task
  · subst hmine
    simp only [hlast, decide_true, if_true]
    split
    · exact rfl
    · rw [connect_begins ((insert_at _ _ _ _).trans (if_pos rfl)) rfl]
      refine ⟨finished.watched, _, rfl, (insert_at _ _ _ _).trans (if_pos rfl), rfl, rfl,
        fun _ => rfl, ?_⟩
      intro sid socket hsid
      cases hsid
  · have hkept : finished.tasks[last]? = some (.checking asked) := by
      rw [htasks.1, erase_at, if_neg hmine, hasked]
    have hnot : window.wanted ≠ .waits task := by
      rw [hlast]
      intro heq
      cases heq
      exact hmine rfl
    simp only [hnot, decide_false, Bool.false_eq_true, if_false]
    split
    · simp only [Follows, hlast]
      exact ⟨asked, hkept⟩
    · rw [connect_begins ((insert_at _ _ _ _).trans (if_pos rfl)) rfl]
      simp only [Follows, Window.begins, Window.sets, hlast]
      refine ⟨asked, (insert_at _ _ _ _).trans ((if_neg ?_).trans hkept)⟩
      rw [htasks.2]
      exact hbegun

theorem checking_kept {tasks : FMap ℕ Task} {task : ℕ} {waiting : Task}
    (htask : tasks[task]? = some waiting)
    (hwatch : waiting.watch = some id) (other : ℕ) (options : Options)
    (hother : tasks[other]? = some (.checking options)) :
    (tasks.erase task)[other]? = some (.checking options) := by
  refine (erase_at _ _ _).trans ((if_neg ?_).trans hother)
  rintro rfl
  cases htask.symm.trans hother
  cases hwatch

theorem checking_begun (hsound : Sound window) {tasks : FMap ℕ Task} (task : Task) (other : ℕ)
    (options : Options)
    (hold : window.tasks[other]? = some (.checking options))
    (hother : tasks[other]? = some (.checking options)) :
    (tasks.insert window.begun task)[other]? = some (.checking options) := by
  refine (insert_at _ _ _ _).trans ((if_neg ?_).trans hother)
  rintro rfl
  rw [hsound.begun window.begun le_rfl] at hold
  cases hold

theorem follows_token (hsound : Sound window) (h : Follows window) {task : ℕ}
    (htask : window.tasks[task]? = some (.connecting id)) (hrunning : window.running = some id)
    (got : Bool) :
    Follows (if got then Window.open_ { window with tasks := window.tasks.erase task } id
      else window.settle
        (Window.ends { window with tasks := window.tasks.erase task } id .ended)) := by
  obtain ⟨watch, shown, hat, hdone, -⟩ := hsound.running id hrunning
  obtain ⟨watch', hat', hnone⟩ := hsound.tasks task _ htask id rfl
  cases hat.symm.trans hat'
  have hkept := fun other options =>
    checking_kept htask (show Task.watch (.connecting id) = some id from rfl) other options
  split
  · simp only [Window.open_, hat]
    rw [if_neg (Bool.not_eq_true _ |>.mpr hdone)]
    refine @follows_sets window _ id watch h hat hrunning { watch with
      socket := some window.opened } rfl rfl rfl ?_
      hrunning ((insert_at _ _ _ _).trans (if_pos rfl)) ?_
    · exact fun other options _ hother => hkept other options hother
    · intro options _ halign
      refine ⟨fun hsocket => (by cases hsocket), fun sid socket hsid hsocket => ?_⟩
      cases hsid
      have hopened := (insert_at _ _ _ _).symm.trans hsocket
      rw [if_pos rfl] at hopened
      cases hopened
      exact Or.inr ⟨halign.waits hnone, fun _ => halign.waits hnone⟩
  · rcases ends_cases hsound (window.tasks.erase task) id .ended with
      ⟨-, hnot⟩ | ⟨watch', shown', -, -, -, heq⟩
    · exact absurd hrunning hnot
    · rw [heq]
      refine follows_over h hrunning rfl ?_ fun other options _ hother => hkept other options hother
      rw [without_eq]

theorem follows_retries (hsound : Sound window) (h : Follows window) {task : ℕ}
    (htask : window.tasks[task]? = some (.retrying id)) (hrunning : window.running = some id) :
    Follows (Window.connect { window with tasks := window.tasks.erase task } id) := by
  obtain ⟨watch, shown, hat, hdone, -⟩ := hsound.running id hrunning
  have hconnect :=
    @connect_begins { window with tasks := window.tasks.erase task } id watch hat hdone
  rw [hconnect]
  refine follows_sets h hat hrunning rfl rfl rfl ?_ hrunning hat fun _ _ halign =>
    ⟨halign.waits, halign.socket⟩
  intro other options _ hother
  exact checking_begun hsound _ other options hother
    (checking_kept htask (show Task.watch (.retrying id) = some id from rfl) other options hother)

/-- A socket opens, or its line goes. -/
theorem follows_turns (hsound : Sound window) (h : Follows window) {sid : ℕ} {socket : Socket}
    (hsid : window.sockets[sid]? = some socket) (hrunning : window.running = some socket.watch)
    {ready : ReadyState}
    (hready : ready = .closing ∨ socket.ready = .connecting) :
    Follows (window.turns sid socket ready) := by
  obtain ⟨watch, shown, hat, hdone, -⟩ := hsound.running _ hrunning
  refine follows_sets h hat hrunning rfl rfl rfl (fun _ _ _ hother => hother) hrunning hat ?_
  refine fun options _ halign => ⟨halign.waits, fun sid' socket' hsid' hsocket' => ?_⟩
  have hset := (insert_at _ _ _ _).symm.trans hsocket'
  split at hset
  · next heq =>
    cases hset
    rcases hready with hclosing | hconnecting
    · exact Or.inl hclosing
    · rcases halign.socket sid' socket hsid' (heq ▸ hsid) with hclosing | hold
      · cases hconnecting.symm.trans hclosing
      · exact Or.inr hold
  · exact halign.socket sid' socket' hsid' hset

theorem onTarget (hrunning : window.running = some id) (hat : window.watchings[id]? = some watch)
    (h : OnTarget window id) {options : Options} (hwanted : window.wanted = .watches options) :
    watch.target = options.target := by
  simp only [OnTarget, hwanted] at h
  exact h hrunning watch hat

theorem follows_closed (hsound : Sound window) (h : Follows window) {sid : ℕ} {socket : Socket}
    (hsid : window.sockets[sid]? = some socket) (hrunning : window.running = some socket.watch)
    {why : ScreenClosing}
    (hallowed : why = .dropped → Retries window sid socket → OnTarget window socket.watch) :
    Follows (window.settle ((window.closed sid why).close (some sid))) := by
  rcases closed_cases hsound hsid why with ⟨heq, hnone⟩ | ⟨watch, hat, hdone, hsocket, -, hgone⟩
  · rw [heq,
      over_of_running (show (window.close (some sid)).running = some socket.watch from hrunning)]
    obtain ⟨watch, shown, hat, -⟩ := hsound.running _ hrunning
    refine follows_sets h hat hrunning rfl rfl rfl (fun _ _ _ hother => hother) hrunning hat ?_
    refine fun options _ halign => ⟨halign.waits, fun sid' socket' hsid' hsocket' => ?_⟩
    rw [close_at, if_neg] at hsocket'
    · exact halign.socket sid' socket' hsid' hsocket'
    · intro heq'
      cases heq'
      exact hnone _ watch hat hsid'
  · rcases hgone with ⟨hdropped, hattempts, heq⟩ | ⟨shown, heq⟩
    · rw [heq]
      refine Eq.mpr (congrArg Follows (@over_of_running window socket.watch _ hrunning)) ?_
      refine @follows_sets window _ socket.watch watch h hat hrunning
        { watch with socket := none, attempts := watch.attempts + 1 } rfl rfl rfl ?_ hrunning
        ((insert_at _ _ _ _).trans (if_pos rfl)) ?_
      · exact fun other options _ hother => checking_begun hsound _ other options hother hother
      · intro options hwanted _
        have htarget :=
          onTarget hrunning hat (hallowed hdropped ⟨watch, hat, hsocket, hattempts⟩) hwanted
        refine ⟨fun _ => htarget, fun sid' socket' hsid' => ?_⟩
        cases hsid'
    · rw [heq]
      refine follows_over h hrunning rfl ?_ fun other options _ hother => ?_
      · rw [without_eq]
      · rw [without_eq]
        exact hother

/-- What was asked last stays, and once it is answered the watch is for it. -/
theorem aligned_heard {sid : ℕ} {socket heard : Socket} {said : Said}
    (hsid : window.sockets[sid]? = some socket)
    (hheard : socket.hears said = some heard) {watch' : Watching} {target : ℕ}
    (h : Aligned window watch target)
    (hsocket : watch'.socket = watch.socket)
    (hsockets : next.sockets = window.sockets.insert sid heard)
    (hwaits : watch.socket = none → watch'.target = target)
    (hothers : ∀ sid', watch.socket = some sid' → sid' ≠ sid → watch'.target = watch.target)
    (hasks : heard.asks = [] → socket.names = target → (socket.asks = [] → watch.target = target) →
      watch'.target = target) : Aligned next watch' target := by
  refine ⟨fun hnone => hwaits (hsocket.symm.trans hnone), fun sid' socket' hsid' hat' => ?_⟩
  rw [hsocket] at hsid'
  rw [hsockets, insert_at] at hat'
  split at hat'
  · next heq =>
    cases hat'
    obtain ⟨hnames, hready⟩ := hears_names hheard
    rcases h.socket sid' socket hsid' (heq ▸ hsid) with hclosing | ⟨hold, htarget⟩
    · exact Or.inl (hready.trans hclosing)
    · exact Or.inr ⟨hnames.trans hold, fun hnil => hasks hnil hold htarget⟩
  · next hne =>
    rw [hothers sid' hsid' hne]
    exact h.socket sid' socket' hsid' hat'

/-- A share shown is the one the words are now about. -/
theorem hears_target {socket heard : Socket} {target : ℕ} {codec : Option ScreenCodec}
    {answer : Bool}
    (h : socket.hears (.showing (some target) codec answer) = some heard) :
    target = heard.about := by
  cases answer with
  | false =>
    obtain ⟨hsame, h⟩ := Option.ite_none_right_eq_some.mp h
    cases h
    exact of_decide_eq_true hsame
  | true =>
    simp only [Socket.hears] at h
    split at h
    · cases h
    · obtain ⟨hsame, h⟩ := Option.ite_none_right_eq_some.mp h
      cases h
      exact of_decide_eq_true hsame

/-- The words go on being about the same share, or answer the next ask. -/
theorem hears_asks {socket heard : Socket} {said : Said} (h : socket.hears said = some heard) :
    heard.asks = socket.asks ∨ (∃ target codec, said = .showing target codec true) ∧
      ∃ ask, socket.asks = ask :: heard.asks := by
  cases said with
  | behind =>
    cases h
    exact Or.inl rfl
  | showing target codec answer =>
    cases answer with
    | false =>
      obtain ⟨-, h⟩ := Option.ite_none_right_eq_some.mp h
      cases h
      exact Or.inl rfl
    | true =>
      simp only [Socket.hears] at h
      split at h
      · cases h
      · next ask asks hasks =>
        obtain ⟨-, h⟩ := Option.ite_none_right_eq_some.mp h
        cases h
        exact Or.inr ⟨⟨target, codec, rfl⟩, ask, hasks⟩

theorem follows_said (h : Follows window) {sid : ℕ} {socket heard : Socket} {said : Said}
    (hsid : window.sockets[sid]? = some socket) (hrunning : window.running = some socket.watch)
    (hheard : socket.hears said = some heard) (hat : window.watchings[socket.watch]? = some watch)
    (hallowed : ∀ codec, said = .showing none codec true → socket.asks.length = 1 →
      OnTarget window socket.watch) :
    Follows (if watch.socket = some sid then
      Window.said { window with sockets := window.sockets.insert sid heard } socket.watch watch said
      else { window with sockets := window.sockets.insert sid heard }) := by
  have hkept : ∀ task options, window.wanted = .waits task →
      window.tasks[task]? = some (.checking options) →
      window.tasks[task]? = some (.checking options) := fun _ _ _ hother => hother
  split
  · next hsocket =>
    have hothers : ∀ watch' : Watching, ∀ sid', watch.socket = some sid' → sid' ≠ sid →
        watch'.target = watch.target :=
      fun _ sid' hsid' hne => absurd (Option.some.inj (hsid'.symm.trans hsocket)) hne
    -- Nothing new is said of whose share it is.
    have hsame : ∀ watch' : Watching, watch'.server = watch.server →
        watch'.sessionId = watch.sessionId →
        watch'.socket = watch.socket → watch'.target = watch.target → ∀ shown,
        (∀ options, window.wanted = .watches options → heard.asks = [] → socket.asks ≠ [] →
          watch.target = options.target) →
        Follows { window with
          sockets := window.sockets.insert sid heard
          watchings := window.watchings.insert socket.watch watch'
          shown := shown } := by
      intro watch' hserver hsession hsocket' htarget shown hended
      refine follows_sets h hat hrunning hserver hsession rfl hkept hrunning
        ((insert_at _ _ _ _).trans (if_pos rfl)) ?_
      intro options hwanted halign
      refine aligned_heard hsid hheard halign hsocket' rfl
        (fun hnone => (by cases hnone.symm.trans hsocket))
        (hothers watch') fun hnil _ hold => htarget.trans ?_
      by_cases hasks : socket.asks = []
      · exact hold hasks
      · exact hended options hwanted hnil hasks
    -- The share on the socket is named: the watch takes that one.
    have hshown : ∀ watch' : Watching, watch'.server = watch.server →
        watch'.sessionId = watch.sessionId →
        watch'.socket = watch.socket → watch'.target = heard.about → ∀ shown,
        Follows { window with
          sockets := window.sockets.insert sid heard
          watchings := window.watchings.insert socket.watch watch'
          shown := shown } := by
      intro watch' hserver hsession hsocket' htarget shown
      refine follows_sets h hat hrunning hserver hsession rfl hkept hrunning
        ((insert_at _ _ _ _).trans (if_pos rfl)) ?_
      intro options hwanted halign
      refine aligned_heard hsid hheard halign hsocket' rfl
        (fun hnone => (by cases hnone.symm.trans hsocket))
        (hothers watch') fun hnil hnames _ => ?_
      rw [htarget, ← names_nil hnil, (hears_names hheard).1, hnames]
    cases said with
    | behind =>
      refine hsame { watch with behindTimer := true } rfl rfl rfl rfl _ fun options _ hnil hasks =>
        ?_
      cases hheard
      exact absurd hnil hasks
    | showing target codec answer =>
      cases target with
      -- No share is named: the answer to the last ask must find the watch on target.
      | none =>
        refine hsame { watch with attempts := 0, codec := none } rfl rfl rfl rfl _
          fun options hwanted hnil hasks => ?_
        rcases hears_asks hheard with hkeep | ⟨⟨target, codec', hsaid⟩, ask, hask⟩
        · exact absurd (hkeep.symm.trans hnil) hasks
        · cases hsaid
          apply onTarget hrunning hat (hallowed codec rfl ?_) hwanted
          rw [hask, hnil]
          rfl
      | some target =>
        have htarget := hears_target hheard
        cases codec with
        | none => exact hshown { watch with
            attempts := 0, target := target, codec := none } rfl rfl rfl htarget _
        | some codec =>
          exact hshown { watch with
            attempts := 0, target := target, codec := some codec } rfl rfl rfl htarget _
  -- A socket the watch has let go of says nothing of the watch.
  · next hnot =>
    refine follows_sets h hat hrunning rfl rfl rfl hkept hrunning hat fun options _ halign => ?_
    refine ⟨halign.waits, fun sid' socket' hsid' hat' => ?_⟩
    have hset := (insert_at _ _ _ _).symm.trans hat'
    split at hset
    · next heq => exact absurd (heq ▸ hsid') hnot
    · exact halign.socket sid' socket' hsid' hset

theorem follows_givesUp (h : Follows window) (hat : window.watchings[id]? = some watch)
    (hrunning : window.running = some id) (codec : ScreenCodec)
    (hallowed : (window.asking watch).isSome → OnTarget window id) :
    Follows (window.givesUp id watch codec) := by
  have hasked := ask_running
    (window.sets id { watch with decode := watch.decode.filter (· ≠ codec), codec := none })
    { watch with decode := watch.decode.filter (· ≠ codec), codec := none } watch.target
  refine @follows_sets window _ id watch h hat hrunning
    { watch with decode := watch.decode.filter (· ≠ codec), codec := none } rfl rfl hasked.2.2 ?_
    (hasked.1.trans hrunning) ?_ ?_
  -- Asking changes no task and not which watch is running.
  · intro task options _ htask
    exact (congrArg (·[task]?) hasked.2.1).trans htask
  · apply (congrArg (·[id]?) (ask_watchings _ _ _)).trans
    exact (insert_at _ _ _ _).trans (if_pos rfl)
  · intro options hwanted halign
    refine ⟨halign.waits, fun sid socket hsid hsocket => ?_⟩
    rcases ask_cases
      (window.sets id { watch with decode := watch.decode.filter (· ≠ codec), codec := none })
      { watch with decode := watch.decode.filter (· ≠ codec), codec := none } watch.target
      with ⟨-, heq⟩ | ⟨sid', socket', hsid', hat', -, hasking, heq⟩
    -- nothing was asked
    · unfold Window.givesUp at hsocket
      rw [heq] at hsocket
      exact halign.socket sid socket hsid hsocket
    -- the watch's own share was asked for, which by the condition is the one wanted
    · have htarget :=
        onTarget hrunning hat (hallowed (Option.isSome_iff_exists.mpr ⟨_, hasking⟩)) hwanted
      cases hsid.symm.trans hsid'
      unfold Window.givesUp at hsocket
      rw [heq, insert_at, if_pos rfl] at hsocket
      cases hsocket
      exact Or.inr ⟨(names_ask _ _).trans htarget, fun _ => htarget⟩

theorem follows_shown (h : Follows window) (shown : Option ScreenWatchState) :
    Follows { window with shown := shown } :=
  follows_of h rfl (fun _ _ _ hother => hother) (fun hnone => hnone) fun _ _ hwatches => by
    obtain ⟨id, watch, hrunning, hat, hserver, hsession, halign⟩ := hwatches
    exact ⟨id, watch, hrunning, hat, hserver, hsession, halign.waits, halign.socket⟩

theorem follows_behindEnds (h : Follows window) (hat : window.watchings[id]? = some watch)
    (hrunning : window.running = some id) (shown : Option ScreenWatchState) :
    Follows { window.sets id { watch with behindTimer := false } with shown := shown } := by
  refine @follows_sets window _ id watch h hat hrunning { watch with
    behindTimer := false } rfl rfl rfl ?_ hrunning
    ((insert_at _ _ _ _).trans (if_pos rfl)) ?_
  · exact fun _ _ _ hother => hother
  · exact fun _ _ halign => ⟨halign.waits, halign.socket⟩

/-- An event of no watch is a press, a stop, the checks' answer or the screen's. -/
theorem Follows.step (hsound : Sound window) (h : Follows window) {event : Event}
    (hallowed : Allowed window event)
    (hs : window.step event = some next) : Follows next := by
  cases hid : event.watch window with
  | some id =>
    -- An event of the running watch.
    by_cases hrunning : window.running = some id
    · cases event with
      | startWatching options => cases hid
      | checked task decode => cases hid
      | stopWatching => cases hid
      | closes => cases hid
      | awaitNext => cases hid
      | watchNext server sessionId target => cases hid
      | token task got =>
        simp only [Window.step] at hs
        split at hs
        · next other htask =>
          simp only [Event.watch, htask, Option.bind_some, Task.watch] at hid
          cases hid
          obtain rfl := Option.some.inj hs
          exact follows_token hsound h htask hrunning got
        · cases hs
      | retries task =>
        simp only [Window.step] at hs
        split at hs
        · next other htask =>
          simp only [Event.watch, htask, Option.bind_some, Task.watch] at hid
          cases hid
          cases hs
          exact follows_retries hsound h htask hrunning
        · cases hs
      | opens sid =>
        obtain ⟨socket, hsid, hs⟩ := Option.bind_eq_some_iff.mp hs
        simp only [Event.watch, hsid, Option.map_some, Option.some.injEq] at hid
        obtain ⟨hready, hs⟩ := Option.ite_none_right_eq_some.mp hs
        cases hs
        exact follows_turns hsound h hsid (hid ▸ hrunning) (Or.inr hready)
      | closing sid =>
        obtain ⟨socket, hsid, hs⟩ := Option.bind_eq_some_iff.mp hs
        simp only [Event.watch, hsid, Option.map_some, Option.some.injEq] at hid
        obtain ⟨-, hs⟩ := Option.ite_none_right_eq_some.mp hs
        cases hs
        exact follows_turns hsound h hsid (hid ▸ hrunning) (Or.inl rfl)
      | closed sid why =>
        obtain ⟨socket, hsid, hs⟩ := Option.bind_eq_some_iff.mp hs
        simp only [Event.watch, hsid, Option.map_some, Option.some.injEq] at hid
        obtain ⟨-, hs⟩ := Option.ite_none_right_eq_some.mp hs
        cases hs
        apply follows_closed hsound h hsid (hid ▸ hrunning)
        rintro rfl
        exact hallowed socket hsid
      | silent sid =>
        obtain ⟨socket, hsid, hs⟩ := Option.map_eq_some_iff.mp hs
        simp only [Event.watch, hsid, Option.map_some, Option.some.injEq] at hid
        cases hs
        exact follows_closed hsound h hsid (hid ▸ hrunning) fun _ => hallowed socket hsid
      | said sid said =>
        obtain ⟨socket, hsid, hs⟩ := Option.bind_eq_some_iff.mp hs
        simp only [Event.watch, hsid, Option.map_some, Option.some.injEq] at hid
        obtain ⟨-, hs⟩ := Option.ite_none_right_eq_some.mp hs
        obtain ⟨heard, hheard, hs⟩ := Option.bind_eq_some_iff.mp hs
        obtain ⟨watch, hat, hs⟩ := Option.map_eq_some_iff.mp hs
        obtain rfl := hs
        apply follows_said h hsid (hid ▸ hrunning) hheard hat
        rintro codec rfl
        exact hallowed socket hsid
      | givesUp other =>
        cases hid
        obtain ⟨watch, hat, hs⟩ := Option.bind_eq_some_iff.mp hs
        split at hs
        · cases hs
          exact h
        · obtain ⟨codec, -, hs⟩ := Option.map_eq_some_iff.mp hs
          cases hs
          exact follows_givesUp h hat hrunning codec (hallowed watch hat)
      | picture other size =>
        cases hid
        obtain ⟨watch, hat, hs⟩ := Option.bind_eq_some_iff.mp hs
        split at hs
        · cases hs
          exact h
        · obtain ⟨codec, -, hs⟩ := Option.map_eq_some_iff.mp hs
          cases hs
          exact follows_shown h _
      | behindEnds other =>
        cases hid
        obtain ⟨watch, hat, hs⟩ := Option.bind_eq_some_iff.mp hs
        obtain ⟨-, hs⟩ := Option.ite_none_right_eq_some.mp hs
        cases hs
        exact follows_behindEnds h hat hrunning _
    -- An event of a watch that was replaced: the running one keeps all it has.
    · exact follows_frame hsound h (frame_step hsound hs hid hrunning)
  | none =>
    cases event with
    -- The rest belong to no watch: presses, stops, the checks' answer, the screen's own.
    | startWatching options =>
      cases hs
      exact follows_startWatching hsound options
    | checked task decode =>
      simp only [Window.step] at hs
      split at hs
      · next options htask =>
        cases hs
        exact follows_checked hsound h htask decode hallowed
      · cases hs
    | stopWatching =>
      cases hs
      exact hsound.finishRunning.2
    | closes =>
      cases hs
      unfold Window.closeEnded
      split
      · exact hsound.finishRunning.2
      · exact hsound.finishRunning.2
    | awaitNext =>
      cases hs
      exact follows_shown h _
    | watchNext server sessionId target =>
      cases hs
      exact follows_watchNext hsound h server sessionId target
    -- The events of a task or a socket always have their watch.
    | token task got =>
      simp only [Window.step] at hs
      split at hs
      · next other htask => simp [Event.watch, htask, Task.watch] at hid
      · cases hs
    | retries task =>
      simp only [Window.step] at hs
      split at hs
      · next other htask => simp [Event.watch, htask, Task.watch] at hid
      · cases hs
    | opens sid =>
      obtain ⟨socket, hsid, -⟩ := Option.bind_eq_some_iff.mp hs
      simp [Event.watch, hsid] at hid
    | closing sid =>
      obtain ⟨socket, hsid, -⟩ := Option.bind_eq_some_iff.mp hs
      simp [Event.watch, hsid] at hid
    | closed sid why =>
      obtain ⟨socket, hsid, -⟩ := Option.bind_eq_some_iff.mp hs
      simp [Event.watch, hsid] at hid
    | silent sid =>
      obtain ⟨socket, hsid, -⟩ := Option.map_eq_some_iff.mp hs
      simp [Event.watch, hsid] at hid
    | said sid said =>
      obtain ⟨socket, hsid, -⟩ := Option.bind_eq_some_iff.mp hs
      simp [Event.watch, hsid] at hid
    | givesUp other => cases hid
    | picture other size => cases hid
    | behindEnds other => cases hid

theorem Sound.oneOpen (h : Sound window) : OneOpen window := by
  have hopen : ∀ (sid : ℕ) (socket : Socket), window.sockets[sid]? = some socket →
      socket.ready = .opened →
      ∃ id watch, window.running = some id ∧ window.watchings[id]? = some watch ∧
        watch.socket = some sid := by
    intro sid socket hsid hready
    obtain ⟨watch, hat, hsocket⟩ := h.held sid socket hsid (by rw [hready]; decide)
    refine ⟨socket.watch, watch, h.alone _ watch hat ?_, hat, hsocket⟩
    apply Bool.not_eq_true _ |>.mp
    intro hdone
    cases (h.stopped _ watch hat hdone).1.symm.trans hsocket
  intro sid sid' socket socket' hsid hsid' hready hready'
  obtain ⟨id, watch, hrunning, hat, hsocket⟩ := hopen sid socket hsid hready
  obtain ⟨id', watch', hrunning', hat', hsocket'⟩ := hopen sid' socket' hsid' hready'
  cases hrunning.symm.trans hrunning'
  cases hat.symm.trans hat'
  exact Option.some.inj (hsocket.symm.trans hsocket')

/-- With nothing in flight, what follows the press has come to be. -/
theorem Follows.settled (hsound : Sound window) (h : Follows window) (hquiet : Quiet window) :
    Settled window := by
  -- Quiet means that every socket not closed is open with nothing asked.
  have hopen : ∀ (sid : ℕ) (socket : Socket), window.sockets[sid]? = some socket →
      socket.ready ≠ .closed → socket.ready = .opened ∧ socket.asks = [] := by
    intro sid socket hsid hready
    exact (hquiet.sockets socket ((mem_vals _ _).mpr ⟨sid, hsid⟩)).resolve_right hready
  -- A watch that is wanted runs, and since no task is under way it is on a socket.
  have hwatch : ∀ options, window.wanted = .watches options →
      ∃ id watch sid socket, window.running = some id ∧
      window.watchings[id]? = some watch ∧ watch.server = options.server ∧
      watch.sessionId = options.sessionId ∧
      watch.target = options.target ∧ watch.socket = some sid ∧ window.sockets[sid]? = some socket ∧
      socket.ready = .opened ∧ socket.names = options.target := by
    intro options hwanted
    obtain ⟨id, watch, hrunning, hat, hserver, hsession, halign⟩ := h.watches hwanted
    obtain ⟨watch', -, hat', hdone, -⟩ := hsound.running id hrunning
    cases hat.symm.trans hat'
    rcases hsound.busy id watch hat hdone with hsome | ⟨task, hmem, -⟩
    · obtain ⟨sid, hsid⟩ := Option.ne_none_iff_exists'.mp hsome
      obtain ⟨socket, hsocket, -, hready⟩ := hsound.owns id watch sid hat hsid
      obtain ⟨hopened, hnil⟩ := hopen sid socket hsocket hready
      obtain ⟨hnames, htarget⟩ :=
        (halign.socket sid socket hsid hsocket).resolve_left (by rw [hopened]; decide)
      exact ⟨id, watch, sid, socket, hrunning, hat, hserver, hsession, htarget hnil, hsid, hsocket,
        hopened, hnames⟩
    · rw [hquiet.tasks] at hmem
      cases hmem
  refine ⟨fun hnothing => ?_, fun task hwaits => ?_, fun options hwanted => ?_,
    fun sid socket hsid hready => ?_⟩
  · simp only [Follows, hnothing] at h
    exact h
  -- A press that waits waits for a task, and there is none.
  · simp only [Follows, hwaits] at h
    obtain ⟨options, htask⟩ := h
    have hmem := (mem_vals _ _).mpr ⟨task, htask⟩
    rw [hquiet.tasks] at hmem
    cases hmem
  · obtain ⟨id, watch, sid, socket, hrunning, hat, hserver, hsession, htarget, hsid, hsocket,
        hready, -⟩ :=
      hwatch options hwanted
    exact ⟨id, watch, sid, socket, hrunning, hat, hserver, hsession, htarget, hsid, hsocket, hready⟩
  · obtain ⟨watch, hat, hsocket⟩ := hsound.held sid socket hsid (by rw [hready]; decide)
    have hdone : watch.done = false := by
      apply Bool.not_eq_true _ |>.mp
      intro hdone
      cases (hsound.stopped _ watch hat hdone).1.symm.trans hsocket
    have hrunning := hsound.alone _ watch hat hdone
    obtain ⟨watch', shown, hat', -, hshown, -, htarget⟩ := hsound.running _ hrunning
    cases hat.symm.trans hat'
    refine ⟨shown, hshown, htarget.trans ?_⟩
    -- What is shown is what is wanted, since nothing else runs.
    cases hwanted : window.wanted with
    | nothing =>
      simp only [Follows, hwanted] at h
      cases h.symm.trans hrunning
    | waits task =>
      simp only [Follows, hwanted] at h
      obtain ⟨options, htask⟩ := h
      have hmem := (mem_vals _ _).mpr ⟨task, htask⟩
      rw [hquiet.tasks] at hmem
      cases hmem
    | watches options =>
      obtain ⟨id, watch', sid', socket', hrunning', hat', -, -, htarget', hsid', hsocket', -,
          hnames⟩ :=
        hwatch options hwanted
      cases hrunning.symm.trans hrunning'
      cases hat.symm.trans hat'
      cases hsocket.symm.trans hsid'
      cases hsid.symm.trans hsocket'
      exact htarget'.trans hnames.symm

end Steps

/-- In every run one socket is open at most, and a watch another one replaced changes nothing shown;
and where the run meets the condition, the last press decides what is watched. -/
theorem last_press_decides (events : List Event) (window : Window)
    (hrun : machine.run events = some window) :
    (machine.Meets Allowed events → Quiet window → Settled window) ∧ OneOpen window ∧
      ∀ event next id, window.step event = some next → event.watch window = some id →
        window.running ≠ some id → next.shown = window.shown := by
  have hsound : Sound window :=
    machine.invariant sound_new (fun _ _ _ h hs => h.step hs) ⟨events, hrun⟩
  refine ⟨fun hmeets hquiet => ?_, hsound.oneOpen,
    fun event next id hs hid hnot => (frame_step hsound hs hid hnot).shown⟩
  have hboth : Sound window ∧ Follows window := by
    apply machine.invariant_of_meets ⟨sound_new, rfl⟩ ?_ hmeets hrun
    intro window event next h hallowed hs
    exact ⟨h.1.step hs, h.2.step h.1 hallowed hs⟩
  exact hboth.2.settled hsound hquiet

instance (window : Window) (id : ℕ) : Decidable (OnTarget window id) := by
  unfold OnTarget
  split <;> infer_instance

instance (window : Window) (sid : ℕ) (socket : Socket) : Decidable (Retries window sid socket) :=
  inferInstanceAs (Decidable (∃ watch ∈ window.watchings[socket.watch]?, watch.socket = some sid ∧
    watch.attempts < retries))

def Wanted.task : Wanted → Option ℕ
  | .waits task => some task
  | _ => none

theorem waits_iff (wanted : Wanted) : wanted.task.isSome = true ↔ ∃ task, wanted = .waits task := by
  cases wanted <;> simp [Wanted.task]

instance (window : Window) (event : Event) : Decidable (Allowed window event) := by
  unfold Allowed
  split
  · exact decidable_of_iff _ (waits_iff window.wanted)
  all_goals infer_instance

/-- A watch starts, and is switched to another share. -/
def switched : List Event :=
  [.startWatching ⟨0, 0, 7, 1, 2⟩, .checked 0 [.vp8], .token 1 true, .opens 0,
  .said 0 (.showing (some 7) (some .vp8) false), .startWatching ⟨0, 0, 8, 1, 3⟩,
  .said 0 (.showing (some 7) none false), .said 0 (.showing (some 8) (some .vp8) true)]

theorem last_press_decides_switched : ∃ window, machine.run switched = some window ∧
    window.wanted = .watches ⟨0, 0, 8, 1, 3⟩ ∧ Settled window ∧ OneOpen window := by
  obtain ⟨window, hr⟩ :=
    Option.isSome_iff_exists.mp (show (machine.run switched).isSome = true by decide +kernel)
  have hmeets : machine.Meets Allowed switched := by decide +kernel
  have hquiet : (machine.run switched).any (fun window => window.wanted = .watches ⟨0, 0, 8, 1, 3⟩ ∧
      vals window.tasks = [] ∧ ∀ socket ∈ vals window.sockets,
        (socket.ready = .opened ∧ socket.asks = []) ∨ socket.ready = .closed) =
          true := by decide +kernel
  rw [hr] at hquiet
  obtain ⟨hwanted, htasks, hsockets⟩ := of_decide_eq_true hquiet
  obtain ⟨hsettled, hopen, -⟩ := last_press_decides switched window hr
  exact ⟨window, hr, hwanted, hsettled hmeets ⟨htasks, hsockets⟩, hopen⟩

/-- A stop while a start waits for its checks is undone. Of two starts whose checks are answered in
the other order, the first counts. And after a switch, a late word about the share before it, and a
drop, the watch comes back for that one. -/
def undone : List (List Event) :=
  [[.startWatching ⟨0, 0, 7, 1, 2⟩, .stopWatching, .checked 0 [.vp8], .token 1 true, .opens 0],
    [.startWatching ⟨0, 0, 7, 1, 2⟩, .startWatching ⟨0, 0, 8, 1, 3⟩, .checked 1 [.vp8],
      .checked 0 [.vp8], .token 2 true, .token 3 true, .opens 0],
    [.startWatching ⟨0, 0, 7, 1, 2⟩, .checked 0 [.vp8], .token 1 true, .opens 0,
      .said 0 (.showing (some 7) (some .vp8) false), .startWatching ⟨0, 0, 8, 1, 3⟩,
      .said 0 (.showing (some 7) none false), .closing 0, .closed 0 .dropped, .retries 2,
      .token 3 true, .opens 1]]

/-- Something runs after a stop, or for another share than the last press named. -/
def Window.astray (window : Window) : Bool :=
  match window.wanted with
  | .nothing => window.running.isSome
  | .waits _ => false
  | .watches options => (window.running.bind (window.watchings[·]?)).all (·.target ≠ options.target)

theorem last_press_undone : ¬ ∃ events ∈ undone,
    ∀ window, machine.run events = some window → Quiet window → Settled window := by
  have hall : ∀ events ∈ undone, (machine.run events).any (fun window => (vals window.tasks = [] ∧
      ∀ socket ∈ vals window.sockets, (socket.ready = .opened ∧ socket.asks = []) ∨
        socket.ready = .closed) ∧
      window.astray) = true := by
    decide +kernel
  intro ⟨events, hmem, hclaim⟩
  obtain ⟨window, hr, hleft⟩ := Option.any_eq_true _ _ |>.mp (hall events hmem)
  obtain ⟨⟨htasks, hsockets⟩, hnot⟩ := of_decide_eq_true hleft
  have hsettled := hclaim window hr ⟨htasks, hsockets⟩
  unfold Window.astray at hnot
  split at hnot
  · next hnothing =>
    rw [hsettled.stopped hnothing] at hnot
    cases hnot
  · cases hnot
  · next options hwanted =>
    obtain ⟨id, watch, -, -, hrunning, hat, -, -, htarget, -⟩ := hsettled.watches options hwanted
    simp [hrunning, hat, htarget] at hnot

end Linger.ScreenWatch
