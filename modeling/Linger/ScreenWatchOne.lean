import Linger.ScreenWatch

/-! In every run at most one watch is not over, the running one, and it has one socket, or waits for
one: no other watch, and no other socket, has anything to say. -/
namespace Linger.ScreenWatch
open FiniteMap StepMachine TaskPool

/-- Whose a socket is, and whether this window has closed it. -/
def Socket.held (socket : Socket) : ℕ × Bool := (socket.watch, socket.ready = .closed)

def Alike (sockets sockets' : FMap ℕ Socket) : Prop :=
  ∀ sid : ℕ, (sockets'[sid]?).map Socket.held = (sockets[sid]?).map Socket.held

def Task.isFor (id : ℕ) (task : Task) : Bool := task.watch = some id

structure Sound (window : Window) : Prop where
  watched : ∀ id : ℕ, window.watched ≤ id → window.watchings[id]? = none
  opened : ∀ sid : ℕ, window.opened ≤ sid → window.sockets[sid]? = none
  begun : ∀ task : ℕ, window.begun ≤ task → window.tasks[task]? = none
  running : ∀ id, window.running = some id → ∃ (watch : Watching) (shown : ScreenWatchState),
    window.watchings[id]? = some watch ∧ watch.done = false ∧
    window.shown = some shown ∧ shown.server = watch.server ∧ shown.target = watch.target
  alone : ∀ (id : ℕ) (watch : Watching), window.watchings[id]? = some watch → watch.done = false →
    window.running = some id
  stopped : ∀ (id : ℕ) (watch : Watching), window.watchings[id]? = some watch → watch.done = true →
    watch.socket = none ∧ watch.behindTimer = false
  held : ∀ (sid : ℕ) (socket : Socket), window.sockets[sid]? = some socket →
    socket.ready ≠ .closed →
    ∃ watch : Watching, window.watchings[socket.watch]? = some watch ∧ watch.socket = some sid
  owns : ∀ (id : ℕ) (watch : Watching) (sid : ℕ), window.watchings[id]? = some watch →
    watch.socket = some sid →
    ∃ socket : Socket, window.sockets[sid]? = some socket ∧ socket.watch = id ∧
      socket.ready ≠ .closed
  tasks : All window.tasks fun task => ∀ id, task.watch = some id →
    ∃ watch : Watching, window.watchings[id]? = some watch ∧ watch.socket = none
  apart : Apart window.tasks Task.watch
  busy : ∀ (id : ℕ) (watch : Watching), window.watchings[id]? = some watch → watch.done = false →
    watch.socket ≠ none ∨ Has window.tasks (Task.isFor id)

theorem alike_insert {sockets : FMap ℕ Socket} {sid : ℕ} {socket socket' : Socket}
    (hat : sockets[sid]? = some socket)
    (hheld : socket'.held = socket.held) : Alike sockets (sockets.insert sid socket') := by
  intro other
  rw [insert_at]
  split
  · next hother => rw [hother, hat, Option.map_some, Option.map_some, hheld]
  · rfl

theorem Alike.at {sockets sockets' : FMap ℕ Socket} (h : Alike sockets sockets') {sid : ℕ}
    {socket : Socket}
    (hat : sockets'[sid]? = some socket) :
    ∃ socket' : Socket, sockets[sid]? = some socket' ∧ socket'.watch = socket.watch ∧
      (socket'.ready = .closed ↔ socket.ready = .closed) := by
  have hsid := h sid
  rw [hat, Option.map_some] at hsid
  obtain ⟨socket', hat', hheld⟩ := Option.map_eq_some_iff.mp hsid.symm
  obtain ⟨hwatch, hready⟩ := Prod.mk.inj hheld
  exact ⟨socket', hat', hwatch, decide_eq_decide.mp hready⟩

theorem Alike.symm {sockets sockets' : FMap ℕ Socket} (h : Alike sockets sockets') :
    Alike sockets' sockets :=
  fun sid => (h sid).symm

section Steps
variable {window : Window} {id : ℕ} {watch : Watching}

theorem Sound.wants (h : Sound window) (wanted : Wanted) : Sound { window with wanted := wanted } :=
  ⟨h.watched, h.opened, h.begun, h.running, h.alone, h.stopped, h.held, h.owns, h.tasks, h.apart,
    h.busy⟩

/-- With nothing running, whatever is shown. -/
theorem Sound.unshown (h : Sound window) (hnone : window.running = none)
    (shown : Option ScreenWatchState) :
    Sound { window with shown := shown } :=
  ⟨h.watched, h.opened, h.begun, fun _ hrunning => (by cases hnone.symm.trans hrunning), h.alone,
    h.stopped, h.held, h.owns, h.tasks, h.apart, h.busy⟩

theorem Sound.sockets (h : Sound window) {sockets : FMap ℕ Socket}
    (halike : Alike window.sockets sockets) :
    Sound { window with sockets := sockets } := by
  refine ⟨h.watched, fun sid hsid => ?_, h.begun, h.running, h.alone, h.stopped,
    fun sid socket hat hready => ?_, fun id watch sid hwatch hsocket => ?_, h.tasks, h.apart,
    h.busy⟩
  · have hnone := halike sid
    rw [h.opened sid hsid] at hnone
    exact Option.map_eq_none_iff.mp hnone
  · obtain ⟨socket', hat', hwatch, hclosed⟩ := halike.at hat
    rw [← hwatch]
    exact h.held sid socket' hat' (fun hclosed' => hready (hclosed.mp hclosed'))
  · obtain ⟨socket, hat, hid, hready⟩ := h.owns id watch sid hwatch hsocket
    obtain ⟨socket', hat', hwatch', hclosed⟩ := halike.symm.at hat
    exact ⟨socket', hat', hwatch'.trans hid, fun hclosed' => hready (hclosed.mp hclosed')⟩

/-- The running watch goes on, on the socket it has, and what is shown with it. -/
theorem Sound.sets (h : Sound window) (hat : window.watchings[id]? = some watch)
    (hdone : watch.done = false)
    {next : Watching} (hnext : next.done = false) (hsocket : next.socket = watch.socket)
    {shown : ScreenWatchState}
    (hserver : shown.server = next.server) (htarget : shown.target = next.target) :
    Sound { window.sets id next with shown := some shown } := by
  have hset : ∀ other : ℕ, (window.watchings.insert id next)[other]? = if other = id then some next
      else window.watchings[other]? := fun other => insert_at _ _ _ _
  -- It is the running one, so what is said of the running watch is said of it.
  have hrunning := h.alone id watch hat hdone
  have hsame : ∀ (other : ℕ) (watch' : Watching), window.watchings[other]? = some watch' →
      ∃ watch'' : Watching, (window.watchings.insert id next)[other]? = some watch'' ∧
        watch''.socket = watch'.socket := by
    intro other watch' hother
    rw [hset]
    split
    · next heq =>
      rw [heq, hat] at hother
      cases hother
      exact ⟨next, rfl, hsocket⟩
    · exact ⟨watch', hother, rfl⟩
  refine ⟨fun other hother => ?_, h.opened, h.begun, fun other hother => ?_,
    fun other watch' hother hdone' => ?_, fun other watch' hother hdone' => ?_,
    fun sid socket hsid hready => ?_, fun other watch' sid hother hsid => ?_, ?_,
    h.apart, fun other watch' hother hdone' => ?_⟩
  -- `watched`, and `running`: the watch is one there was.
  · refine (hset other).trans ((if_neg ?_).trans (h.watched other hother))
    rintro rfl
    rw [h.watched other hother] at hat
    cases hat
  · obtain rfl := Option.some.inj (hrunning.symm.trans hother)
    exact ⟨next, shown, (hset id).trans (if_pos rfl), hnext, rfl, hserver, htarget⟩
  -- `alone` and `stopped`
  · have hother' := (hset other).symm.trans hother
    split at hother'
    · next heq => exact heq ▸ hrunning
    · exact h.alone other watch' hother' hdone'
  · have hother' := (hset other).symm.trans hother
    split at hother'
    · cases hother'
      cases hnext.symm.trans hdone'
    · exact h.stopped other watch' hother' hdone'
  -- `held` and `owns`: every watch has the socket it had.
  · obtain ⟨watch', hwatch, hsid'⟩ := h.held sid socket hsid hready
    obtain ⟨watch'', hwatch', hsocket'⟩ := hsame _ _ hwatch
    exact ⟨watch'', hwatch', hsocket'.trans hsid'⟩
  · have hother' := (hset other).symm.trans hother
    split at hother'
    · next heq =>
      cases hother'
      rw [heq]
      exact h.owns id watch sid hat (hsocket.symm.trans hsid)
    · exact h.owns other watch' sid hother' hsid
  -- `tasks` and `busy`
  · refine h.tasks.imp fun task htask other hother => ?_
    obtain ⟨watch', hwatch, hnone⟩ := htask other hother
    obtain ⟨watch'', hwatch', hsocket'⟩ := hsame _ _ hwatch
    exact ⟨watch'', hwatch', hsocket'.trans hnone⟩
  · have hother' := (hset other).symm.trans hother
    split at hother'
    · next heq =>
      cases hother'
      rw [heq, hsocket]
      exact h.busy id watch hat hdone
    · exact h.busy other watch' hother' hdone'

theorem close_at (window : Window) (socket : Option ℕ) (sid : ℕ) :
    (window.close socket).sockets[sid]? =
    if socket = some sid then
      (window.sockets[sid]?).map fun socket => { socket with ready := .closed }
    else window.sockets[sid]? := by
  cases socket with
  | none => rfl
  | some other =>
    apply (modify_at _ _ _ _).trans
    by_cases hother : sid = other
    · rw [hother, if_pos rfl, if_pos rfl]
    · rw [if_neg hother, if_neg fun h => hother (Option.some.inj h).symm]

theorem close_eq (window : Window) (socket : Option ℕ) :
    window.close socket = { window with sockets := (window.close socket).sockets } := by
  cases socket <;> rfl

/-- What is left of a watch once it is over: nothing runs, and its socket is closed. -/
def Window.without (window : Window) (id : ℕ) (watch : Watching) (shown : Option ScreenWatchState) :
    Window :=
  { (window.close watch.socket).sets id { watch with
    done := true, behindTimer := false, codec := none, socket := none }
    with running := none, shown := shown }

theorem without_eq (window : Window) (id : ℕ) (watch : Watching) (shown : Option ScreenWatchState) :
    window.without id watch shown = { window with
      sockets := (window.close watch.socket).sockets
      watchings := window.watchings.insert id
        { watch with done := true, behindTimer := false, codec := none, socket := none }
      running := none
      shown := shown } := by
  rw [Window.without, close_eq]
  rfl

theorem Sound.without (h : Sound window) (hat : window.watchings[id]? = some watch)
    (hdone : watch.done = false)
    (shown : Option ScreenWatchState) : Sound (window.without id watch shown) := by
  rw [without_eq]
  have hset : ∀ other : ℕ, (window.watchings.insert id
      { watch with done := true, behindTimer := false, codec := none, socket := none })[other]? =
      if other = id then
        some { watch with done := true, behindTimer := false, codec := none, socket := none }
      else window.watchings[other]? := fun other => insert_at _ _ _ _
  -- Only the running watch is not over.
  have hothers : ∀ (other : ℕ) (watch' : Watching), window.watchings[other]? = some watch' →
      watch'.done = false → other = id := by
    intro other watch' hother hdone'
    exact Option.some.inj
      ((h.alone other watch' hother hdone').symm.trans (h.alone id watch hat hdone))
  have hclose :
      ∀ (sid : ℕ) (socket : Socket), (window.close watch.socket).sockets[sid]? = some socket →
      socket.ready ≠ .closed → watch.socket ≠ some sid ∧ window.sockets[sid]? = some socket := by
    intro sid socket hsid hready
    rw [close_at] at hsid
    split at hsid
    · obtain ⟨socket, -, rfl⟩ := Option.map_eq_some_iff.mp hsid
      exact absurd rfl hready
    · next hne => exact ⟨hne, hsid⟩
  refine ⟨fun other hother => ?_, fun sid hsid => ?_, h.begun,
    fun other hother => (by cases hother), fun other watch' hother hdone' => ?_,
    fun other watch' hother hdone' => ?_, fun sid socket hsid hready => ?_,
    fun other watch' sid hother hsid => ?_, ?_, h.apart, fun other watch' hother hdone' => ?_⟩
  -- `watched` and `opened`
  · refine (hset other).trans ((if_neg ?_).trans (h.watched other hother))
    rintro rfl
    rw [h.watched other hother] at hat
    cases hat
  · have hnone := close_at window watch.socket sid
    rw [h.opened sid hsid, Option.map_none, ite_self] at hnone
    exact hnone
  -- `alone` and `stopped`: nothing runs, and this watch has let go.
  · have hother' := (hset other).symm.trans hother
    split at hother'
    · cases hother'
      cases hdone'
    · next hne => exact absurd (hothers other watch' hother' hdone') hne
  · have hother' := (hset other).symm.trans hother
    split at hother'
    · cases hother'
      exact ⟨rfl, rfl⟩
    · exact h.stopped other watch' hother' hdone'
  -- `held`: a socket that is not closed is another watch's.
  · obtain ⟨hne, hsid'⟩ := hclose sid socket hsid hready
    obtain ⟨watch', hwatch, hsocket⟩ := h.held sid socket hsid' hready
    refine ⟨watch', (hset _).trans ((if_neg ?_).trans hwatch), hsocket⟩
    intro heq
    rw [heq, hat] at hwatch
    cases hwatch
    exact hne hsocket
  -- `owns`: no other watch had the socket that was closed.
  · have hother' := (hset other).symm.trans hother
    split at hother'
    · cases hother'
      cases hsid
    · next hne =>
      obtain ⟨socket, hsid', hid, hready⟩ := h.owns other watch' sid hother' hsid
      refine ⟨socket, (close_at window watch.socket sid).trans ((if_neg ?_).trans hsid'), hid,
        hready⟩
      intro hsame
      obtain ⟨socket', hsid'', hid', -⟩ := h.owns id watch sid hat hsame
      rw [hsid'] at hsid''
      cases hsid''
      exact hne (hid.symm.trans hid')
  -- `tasks` and `busy`
  · refine h.tasks.imp fun task htask other hother => ?_
    obtain ⟨watch', hwatch, hnone⟩ := htask other hother
    by_cases heq : other = id
    · exact ⟨_, (hset other).trans (if_pos heq), rfl⟩
    · exact ⟨watch', (hset other).trans ((if_neg heq).trans hwatch), hnone⟩
  · have hother' := (hset other).symm.trans hother
    split at hother'
    · cases hother'
      cases hdone'
    · next hne => exact absurd (hothers other watch' hother' hdone') hne

theorem finish_running (hat : window.watchings[id]? = some watch) (hdone : watch.done = false)
    (hrunning : window.running = some id) (clear : Bool) : window.finish id clear =
      window.without id watch (if clear && window.shows watch then none else window.shown) := by
  simp only [Window.finish, hat, hdone, hrunning, decide_true, if_true, Bool.and_true,
    Bool.false_eq_true, if_false]
  rfl

theorem ends_running (hat : window.watchings[id]? = some watch) (hdone : watch.done = false)
    (hrunning : window.running = some id) (status : Status) (hshows : window.shows watch = true) :
    window.ends id status =
      window.without id watch (window.shown.map ({ · with status := status })) := by
  simp only [Window.ends, hat]
  rw [if_pos ⟨hrunning, hshows⟩]
  apply (@finish_running { window with
    shown := window.shown.map ({ · with status := status }) } id watch hat hdone
    hrunning false).trans
  simp only [Window.without, Bool.false_and, Bool.false_eq_true, if_false]
  generalize watch.socket = socket
  cases socket <;> rfl

/-- A watch that is over says nothing, and the running one's end leaves nothing running. -/
theorem finish_cases (h : Sound window) (id : ℕ) (clear : Bool) :
    (window.finish id clear = window ∧ window.running ≠ some id) ∨
    ∃ watch shown, window.watchings[id]? = some watch ∧
      watch.done = false ∧ window.running = some id ∧
      window.finish id clear = window.without id watch shown := by
  by_cases hrunning : window.running = some id
  · obtain ⟨watch, -, hat, hdone, -⟩ := h.running id hrunning
    exact Or.inr ⟨watch, _, hat, hdone, hrunning, finish_running hat hdone hrunning clear⟩
  · refine Or.inl ⟨?_, hrunning⟩
    unfold Window.finish
    cases hat : window.watchings[id]? with
    | none => rfl
    | some watch =>
      have hdone : watch.done = true :=
        Bool.not_eq_false _ |>.mp fun hdone => hrunning (h.alone id watch hat hdone)
      simp only [hdone, if_true]

theorem finishRunning_cases (h : Sound window) :
    (window.finishRunning = window ∧ window.running = none) ∨
    ∃ id watch shown, window.watchings[id]? = some watch ∧ watch.done = false ∧
      window.running = some id ∧ window.finishRunning = window.without id watch shown := by
  unfold Window.finishRunning
  cases hrunning : window.running with
  | none => exact Or.inl ⟨rfl, rfl⟩
  | some id =>
    rcases finish_cases h id true with ⟨-, hnot⟩ | ⟨watch, shown, hat, hdone, -, heq⟩
    · exact absurd hrunning hnot
    · exact Or.inr ⟨id, watch, shown, hat, hdone, rfl, heq⟩

theorem Sound.finishRunning (h : Sound window) :
    Sound window.finishRunning ∧ window.finishRunning.running = none := by
  rcases finishRunning_cases h with ⟨heq, hnone⟩ | ⟨id, watch, shown, hat, hdone, -, heq⟩
  · rw [heq]
    exact ⟨h, hnone⟩
  · rw [heq]
    exact ⟨h.without hat hdone shown, rfl⟩

theorem over_of_not_running (h : Sound window) (hnot : window.running ≠ some id)
    (hat : window.watchings[id]? = some watch) : watch.done = true :=
  Bool.not_eq_false _ |>.mp fun hdone => hnot (h.alone id watch hat hdone)

/-- A watch's own end, and what it says last, with the task it ends in gone. -/
theorem ends_cases (h : Sound window) (tasks : FMap ℕ Task) (id : ℕ) (status : Status) :
    (Window.ends { window with tasks := tasks } id status = { window with tasks := tasks } ∧
      window.running ≠ some id) ∨
      ∃ watch shown, window.watchings[id]? = some watch ∧ watch.done = false ∧
        window.running = some id ∧
        Window.ends { window with tasks := tasks } id status =
          { window.without id watch shown with tasks := tasks } := by
  by_cases hrunning : window.running = some id
  · obtain ⟨watch, shown, hat, hdone, hshown, hserver, -⟩ := h.running id hrunning
    have hshows : window.shows watch = true := by simp [Window.shows, hshown, hserver]
    have hends :=
      @ends_running { window with tasks := tasks } id watch hat hdone hrunning status hshows
    rw [without_eq] at hends
    refine Or.inr ⟨watch, window.shown.map ({ · with status := status }), hat, hdone, hrunning,
      hends.trans ?_⟩
    rw [without_eq]
    generalize watch.socket = socket
    cases socket <;> rfl
  · refine Or.inl ⟨?_, hrunning⟩
    unfold Window.ends Window.finish
    cases hat : window.watchings[id]? with
    | none => rfl
    | some watch =>
      have hdone := over_of_not_running h hrunning hat
      simp only [hrunning, false_and, if_false, hat, hdone, if_true]

/-- Tasks begin and end, and whoever waits is not left with none. -/
theorem Sound.with_tasks (h : Sound window) {tasks : FMap ℕ Task} {begun : ℕ}
    (hbegun : ∀ task : ℕ, begun ≤ task → tasks[task]? = none)
    (hall : All tasks fun task => ∀ id, task.watch = some id →
      ∃ watch : Watching, window.watchings[id]? = some watch ∧ watch.socket = none)
    (hapart : Apart tasks Task.watch)
    (hbusy : ∀ (id : ℕ) (watch : Watching), window.watchings[id]? = some watch →
      watch.done = false → Has window.tasks (Task.isFor id) → Has tasks (Task.isFor id)) :
    Sound { window with tasks := tasks, begun := begun } := by
  refine ⟨h.watched, h.opened, hbegun, h.running, h.alone, h.stopped, h.held, h.owns, hall, hapart,
    ?_⟩
  intro id watch hat hdone
  exact (h.busy id watch hat hdone).imp_right (hbusy id watch hat hdone)

theorem Sound.begins (h : Sound window) (options : Options) :
    Sound (window.begins (.checking options)) := by
  refine h.with_tasks ?_ ?_ ?_ ?_
  · intro task htask
    have htask : window.begun + 1 ≤ task := htask
    exact (insert_at _ _ _ _).trans ((if_neg (by omega)).trans (h.begun task (by omega)))
  · exact h.tasks.insert window.begun fun id hid => by cases hid
  · exact h.apart.insert window.begun fun id hid => by cases hid
  · exact fun id watch _ _ hhas => has_begin (h.begun window.begun le_rfl) hhas

/-- A task ends, of a watch that is over or of none. -/
theorem Sound.erase (h : Sound window) {task : ℕ} {done : Task}
    (htask : window.tasks[task]? = some done)
    (hover : ∀ (id : ℕ) (watch : Watching), done.watch = some id →
      window.watchings[id]? = some watch →
      watch.done = true) : Sound { window with tasks := window.tasks.erase task } := by
  refine h.with_tasks ?_ (h.tasks.erase task) (h.apart.erase task) ?_
  · intro other hother
    rw [erase_at]
    split
    · rfl
    · exact h.begun other hother
  · intro id watch hat hdone hhas
    rcases has_split htask hhas with hfor | hothers
    · cases hdone.symm.trans (hover id watch (of_decide_eq_true hfor) hat)
    · exact hothers

/-- Or another takes its place. -/
theorem Sound.turns_task (h : Sound window) {task : ℕ} {done : Task}
    (htask : window.tasks[task]? = some done)
    {next : Task} (hnext : next.watch = done.watch) :
    Sound ({ window with tasks := window.tasks.erase task }.begins next) := by
  have hfresh : (window.tasks.erase task)[window.begun]? = none := by
    rw [erase_at]
    split
    · rfl
    · exact h.begun window.begun le_rfl
  refine h.with_tasks ?_ ?_ ?_ ?_
  · intro other hother
    have hother : window.begun + 1 ≤ other := hother
    apply (insert_at _ _ _ _).trans
    rw [if_neg (by omega), erase_at]
    split
    · rfl
    · exact h.begun other (by omega)
  · apply (h.tasks.erase task).insert window.begun
    intro id hid
    exact h.tasks task done htask id (hnext ▸ hid)
  · apply (h.apart.erase task).insert window.begun
    intro id hid other waiting hother hwaiting
    rw [erase_at] at hother
    split at hother
    · cases hother
    · next hne =>
        exact absurd (h.apart other task waiting done id hother htask hwaiting (hnext ▸ hid)) hne
  · intro id watch hat hdone hhas
    apply has_insert.mpr
    rcases has_split htask hhas with hfor | hothers
    · refine Or.inl (decide_eq_true ?_)
      exact hnext.trans (of_decide_eq_true hfor)
    · obtain ⟨other, waiting, hne, hother, hfor⟩ := others_iff.mp hothers
      refine Or.inr (others_iff.mpr ⟨other, waiting, ?_, ?_, hfor⟩)
      · rintro rfl
        rw [h.begun window.begun le_rfl] at hother
        cases hother
      · rw [erase_at, if_neg hne, hother]

/-- The running watch lets go of its socket, and waits for another. -/
theorem Sound.reopens (h : Sound window) (hat : window.watchings[id]? = some watch)
    (hdone : watch.done = false)
    {sid : ℕ} (hsid : watch.socket = some sid) {next : Watching} (hnext : next.done = false)
    (hsocket : next.socket = none) {shown : ScreenWatchState} (hserver : shown.server = next.server)
    (htarget : shown.target = next.target) {task : Task} (htask : task.watch = some id) :
    Sound { window with
      sockets := (window.close (some sid)).sockets
      watchings := window.watchings.insert id next
      tasks := window.tasks.insert window.begun task
      begun := window.begun + 1
      shown := some shown } := by
  have hset : ∀ other : ℕ, (window.watchings.insert id next)[other]? = if other = id then some next
      else window.watchings[other]? := fun other => insert_at _ _ _ _
  have hrunning := h.alone id watch hat hdone
  -- It was on a socket, so no task was under way for it.
  have hnone : ∀ (other : ℕ) (waiting : Task), window.tasks[other]? = some waiting →
      waiting.watch ≠ some id := by
    intro other waiting hother hfor
    obtain ⟨watch', hat', hnone⟩ := h.tasks other waiting hother id hfor
    cases hat.symm.trans hat'
    cases hsid.symm.trans hnone
  have hclose :
      ∀ (other : ℕ) (socket : Socket), (window.close (some sid)).sockets[other]? = some socket →
      socket.ready ≠ .closed → other ≠ sid ∧ window.sockets[other]? = some socket := by
    intro other socket hother hready
    rw [close_at] at hother
    split at hother
    · obtain ⟨socket, -, rfl⟩ := Option.map_eq_some_iff.mp hother
      exact absurd rfl hready
    · next hne => exact ⟨fun heq => hne (congrArg some heq.symm), hother⟩
  refine ⟨fun other hother => ?_, fun other hother => ?_, fun other hother => ?_,
    fun other hother => ?_, fun other watch' hother hdone' => ?_,
    fun other watch' hother hdone' => ?_, fun other socket hother hready => ?_,
    fun other watch' sid' hother hsid' => ?_, ?_, ?_, fun other watch' hother hdone' => ?_⟩
  -- `watched`, `opened` and `begun`
  · refine (hset other).trans ((if_neg ?_).trans (h.watched other hother))
    rintro rfl
    rw [h.watched other hother] at hat
    cases hat
  · have hclosed := close_at window (some sid) other
    rw [h.opened other hother, Option.map_none, ite_self] at hclosed
    exact hclosed
  · have hother : window.begun + 1 ≤ other := hother
    exact (insert_at _ _ _ _).trans ((if_neg (by omega)).trans (h.begun other (by omega)))
  -- `running`, `alone` and `stopped`
  · obtain rfl := Option.some.inj (hrunning.symm.trans hother)
    exact ⟨next, shown, (hset id).trans (if_pos rfl), hnext, rfl, hserver, htarget⟩
  · have hother' := (hset other).symm.trans hother
    split at hother'
    · next heq => exact heq ▸ hrunning
    · exact h.alone other watch' hother' hdone'
  · have hother' := (hset other).symm.trans hother
    split at hother'
    · cases hother'
      cases hnext.symm.trans hdone'
    · exact h.stopped other watch' hother' hdone'
  -- `held` and `owns`: the socket that was let go of is closed, and was no other watch's.
  · obtain ⟨hne, hother'⟩ := hclose other socket hother hready
    obtain ⟨watch', hwatch, hsid'⟩ := h.held other socket hother' hready
    refine ⟨watch', (hset _).trans ((if_neg ?_).trans hwatch), hsid'⟩
    intro heq
    rw [heq, hat] at hwatch
    cases hwatch
    exact hne (Option.some.inj (hsid'.symm.trans hsid))
  · have hother' := (hset other).symm.trans hother
    split at hother'
    · cases hother'
      cases hsocket.symm.trans hsid'
    · next hne =>
      obtain ⟨socket, hat', hid, hready⟩ := h.owns other watch' sid' hother' hsid'
      refine ⟨socket, (close_at window (some sid) sid').trans ((if_neg ?_).trans hat'), hid, hready⟩
      intro heq
      obtain ⟨socket', hat'', hid', -⟩ := h.owns id watch sid hat hsid
      rw [Option.some.inj heq, hat'] at hat''
      cases hat''
      exact hne (hid.symm.trans hid')
  -- `tasks` and `apart`: the new task is the only one for this watch.
  · apply All.insert
    · refine h.tasks.imp fun waiting hwaiting other hother => ?_
      obtain ⟨watch', hwatch, hnone'⟩ := hwaiting other hother
      by_cases heq : other = id
      · exact ⟨next, (hset other).trans (if_pos heq), hsocket⟩
      · exact ⟨watch', (hset other).trans ((if_neg heq).trans hwatch), hnone'⟩
    · intro other hother
      cases htask.symm.trans hother
      exact ⟨next, (hset id).trans (if_pos rfl), hsocket⟩
  · apply h.apart.insert
    intro other hother another waiting hat' hwaiting
    cases htask.symm.trans hother
    exact absurd hwaiting (hnone another waiting hat')
  -- `busy`: this watch waits for the new task.
  · apply Or.inr
    apply has_insert.mpr
    have hother' := (hset other).symm.trans hother
    split at hother'
    · next heq =>
      rw [heq]
      exact Or.inl (decide_eq_true htask)
    · next hne => exact absurd (Option.some.inj
        ((h.alone other watch' hother' hdone').symm.trans hrunning)) hne

/-- With nothing running, a watch starts, and waits for its token. -/
theorem Sound.starts (h : Sound window) (hnone : window.running = none) (hdone : watch.done = false)
    (hsocket : watch.socket = none) {shown : ScreenWatchState}
    (hserver : shown.server = watch.server)
    (htarget : shown.target = watch.target) :
    Sound { window with
      watchings := window.watchings.insert window.watched watch
      watched := window.watched + 1
      running := some window.watched
      shown := some shown
      tasks := window.tasks.insert window.begun (.connecting window.watched)
      begun := window.begun + 1 } := by
  have hset : ∀ other : ℕ, (window.watchings.insert window.watched watch)[other]? =
      if other = window.watched then some watch else window.watchings[other]? :=
        fun other => insert_at _ _ _ _
  have hfresh := h.watched window.watched le_rfl
  -- With nothing running, every watch there was is over.
  have hover : ∀ (other : ℕ) (watch' : Watching), window.watchings[other]? = some watch' →
      watch'.done = true := by
    intro other watch' hother
    apply Bool.not_eq_false _ |>.mp
    intro hdone'
    cases hnone.symm.trans (h.alone other watch' hother hdone')
  have hkeep : ∀ (other : ℕ) (watch' : Watching), window.watchings[other]? = some watch' →
      (window.watchings.insert window.watched watch)[other]? = some watch' := by
    intro other watch' hother
    refine (hset other).trans ((if_neg ?_).trans hother)
    rintro rfl
    cases hfresh.symm.trans hother
  refine ⟨fun other hother => ?_, h.opened, fun other hother => ?_, fun other hother => ?_,
    fun other watch' hother hdone' => ?_, fun other watch' hother hdone' => ?_,
    fun sid socket hsid hready => ?_, fun other watch' sid hother hsid => ?_, ?_, ?_,
    fun other watch' hother hdone' => ?_⟩
  -- `watched` and `begun`
  · have hother : window.watched + 1 ≤ other := hother
    exact (hset other).trans ((if_neg (by omega)).trans (h.watched other (by omega)))
  · have hother : window.begun + 1 ≤ other := hother
    exact (insert_at _ _ _ _).trans ((if_neg (by omega)).trans (h.begun other (by omega)))
  -- `running`, `alone` and `stopped`
  · obtain rfl := Option.some.inj hother
    exact ⟨watch, shown, (hset _).trans (if_pos rfl), hdone, rfl, hserver, htarget⟩
  · have hother' := (hset other).symm.trans hother
    split at hother'
    · next heq => exact congrArg some heq.symm
    · cases hdone'.symm.trans (hover other watch' hother')
  · have hother' := (hset other).symm.trans hother
    split at hother'
    · cases hother'
      cases hdone.symm.trans hdone'
    · exact h.stopped other watch' hother' hdone'
  -- `held` and `owns`: the new watch has no socket yet.
  · obtain ⟨watch', hwatch, hsid'⟩ := h.held sid socket hsid hready
    exact ⟨watch', hkeep _ _ hwatch, hsid'⟩
  · have hother' := (hset other).symm.trans hother
    split at hother'
    · cases hother'
      cases hsocket.symm.trans hsid
    · exact h.owns other watch' sid hother' hsid
  -- `tasks` and `apart`: nothing was under way for a watch that is only now made.
  · apply All.insert
    · refine h.tasks.imp fun waiting hwaiting other hother => ?_
      obtain ⟨watch', hwatch, hnone'⟩ := hwaiting other hother
      exact ⟨watch', hkeep other watch' hwatch, hnone'⟩
    · intro other hother
      obtain rfl := Option.some.inj hother
      exact ⟨watch, (hset _).trans (if_pos rfl), hsocket⟩
  · apply h.apart.insert
    intro other hother another waiting hat' hwaiting
    obtain rfl := Option.some.inj hother
    obtain ⟨watch', hwatch, -⟩ := h.tasks another waiting hat' _ hwaiting
    cases hfresh.symm.trans hwatch
  -- `busy`
  · apply Or.inr
    apply has_insert.mpr
    have hother' := (hset other).symm.trans hother
    split at hother'
    · next heq =>
      rw [heq]
      exact Or.inl (decide_eq_true rfl)
    · cases hdone'.symm.trans (hover other watch' hother')

/-- With its token, a watch opens a socket. -/
theorem Sound.opens (h : Sound window) (hat : window.watchings[id]? = some watch)
    (hdone : watch.done = false)
    {task : ℕ} {waiting : Task} (htask : window.tasks[task]? = some waiting)
    (hfor : waiting.watch = some id)
    (about : ℕ) :
    Sound { window with
      tasks := window.tasks.erase task
      watchings := window.watchings.insert id { watch with socket := some window.opened }
      sockets := window.sockets.insert window.opened ⟨id, .connecting, about, []⟩
      opened := window.opened + 1 } := by
  have hset : ∀ other : ℕ,
      (window.watchings.insert id { watch with socket := some window.opened })[other]? =
      if other = id then some { watch with socket := some window.opened }
        else window.watchings[other]? :=
    fun other => insert_at _ _ _ _
  have hsockets :
      ∀ sid : ℕ, (window.sockets.insert window.opened ⟨id, .connecting, about, []⟩)[sid]? =
      if sid = window.opened then some ⟨id, .connecting, about, []⟩ else window.sockets[sid]? :=
    fun sid => insert_at _ _ _ _
  have hrunning := h.alone id watch hat hdone
  -- The task that is done was for this watch, which so had no socket.
  have hnone : watch.socket = none := by
    obtain ⟨watch', hat', hnone⟩ := h.tasks task waiting htask id hfor
    cases hat.symm.trans hat'
    exact hnone
  refine ⟨fun other hother => ?_, fun sid hsid => ?_, fun other hother => ?_,
    fun other hother => ?_, fun other watch' hother hdone' => ?_,
    fun other watch' hother hdone' => ?_, fun sid socket hsid hready => ?_,
    fun other watch' sid hother hsid => ?_, ?_, h.apart.erase task,
    fun other watch' hother hdone' => ?_⟩
  -- `watched`, `opened` and `begun`
  · refine (hset other).trans ((if_neg ?_).trans (h.watched other hother))
    rintro rfl
    rw [h.watched other hother] at hat
    cases hat
  · have hsid : window.opened + 1 ≤ sid := hsid
    exact (hsockets sid).trans ((if_neg (by omega)).trans (h.opened sid (by omega)))
  · rw [erase_at]
    split
    · rfl
    · exact h.begun other hother
  -- `running`, `alone` and `stopped`
  · obtain rfl := Option.some.inj (hrunning.symm.trans hother)
    obtain ⟨watch', shown, hat', -, hshown, hserver, htarget⟩ := h.running id hrunning
    cases hat.symm.trans hat'
    exact ⟨_, shown, (hset id).trans (if_pos rfl), hdone, hshown, hserver, htarget⟩
  · have hother' := (hset other).symm.trans hother
    split at hother'
    · next heq => exact heq ▸ hrunning
    · exact h.alone other watch' hother' hdone'
  · have hother' := (hset other).symm.trans hother
    split at hother'
    · cases hother'
      cases hdone.symm.trans hdone'
    · exact h.stopped other watch' hother' hdone'
  -- `held` and `owns`: the new socket is this watch's, and the others' are what they were.
  · have hsid' := (hsockets sid).symm.trans hsid
    split at hsid'
    · next heq =>
      cases hsid'
      exact ⟨_, (hset id).trans (if_pos rfl), congrArg some heq.symm⟩
    · obtain ⟨watch', hwatch, hold⟩ := h.held sid socket hsid' hready
      refine ⟨watch', (hset _).trans ((if_neg ?_).trans hwatch), hold⟩
      intro heq
      rw [heq, hat] at hwatch
      cases hwatch
      cases hnone.symm.trans hold
  · have hother' := (hset other).symm.trans hother
    split at hother'
    · next heq =>
      cases hother'
      obtain rfl := Option.some.inj hsid
      exact ⟨_, (hsockets _).trans (if_pos rfl), heq.symm, fun hclosed => by cases hclosed⟩
    · obtain ⟨socket, hsid', hid, hready⟩ := h.owns other watch' sid hother' hsid
      refine ⟨socket, (hsockets sid).trans ((if_neg ?_).trans hsid'), hid, hready⟩
      rintro rfl
      rw [h.opened window.opened le_rfl] at hsid'
      cases hsid'
  -- `tasks`: the only task for this watch was the one that is done.
  · intro other waiting' hother another hanother
    have hother' := hother
    rw [erase_at] at hother'
    split at hother'
    · cases hother'
    · next hne =>
      obtain ⟨watch', hwatch, hnone'⟩ := h.tasks other waiting' hother' another hanother
      refine ⟨watch', (hset another).trans ((if_neg ?_).trans hwatch), hnone'⟩
      rintro rfl
      exact hne (h.apart other task waiting' waiting another hother' htask hanother hfor)
  -- `busy`
  · have hother' := (hset other).symm.trans hother
    split at hother'
    · cases hother'
      exact Or.inl (Option.some_ne_none _)
    · next hne => exact absurd (Option.some.inj
        ((h.alone other watch' hother' hdone').symm.trans hrunning)) hne

end Steps

end Linger.ScreenWatch
