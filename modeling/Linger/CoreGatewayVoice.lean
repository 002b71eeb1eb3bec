import Linger.CoreGatewaySequence

/-! A `voice.leave` kept until the session is back, and the `voice.join`s given after it. -/
namespace Linger.CoreGateway
open StepMachine

section Order
variable {st st' : State} {log : List Entry} {event : Event} {resuming ready ok : Bool}
  {beat : Beat} {f : Incoming}
  {k : ℕ} {events : List Event}

/-- No `voice.leave` is written, or tried, after the `voice.join` of a command given later than one
it is for. -/
def InOrder (log : List Entry) : Prop :=
  ∀ pre ks ok post, log = pre ++ .wrote (.voiceLeave ks) ok :: post →
    ∀ j ok', Entry.wrote (.frame j .voiceJoin) ok' ∈ pre → ∀ k ∈ ks, j < k

/-- A `voice.join` goes out only while no leave is kept. -/
def JoinsAfter (st : State) : Event → Prop
  | .serve _ => st.phase.isLive = true → (st.queue.head?.map Prod.snd) = some (.send .voiceJoin) →
      st.leaveVoice = []
  | _ => True

/-- Commands are served as they were given, and a kept leave was asked for after every join that
went out. -/
structure Served (st : State) : Prop where
  order : InOrder st.log
  kept : ∀ j ok, Entry.wrote (.frame j .voiceJoin) ok ∈ st.log → ∀ k ∈ st.leaveVoice, j < k
  queued : (st.queue.map Prod.fst).Pairwise (· < ·)
  given : ∀ q ∈ st.queue.map Prod.fst, q < st.given
  joined : ∀ j ok, Entry.wrote (.frame j .voiceJoin) ok ∈ st.log →
    j < st.given ∧ ∀ q ∈ st.queue.map Prod.fst, j < q
  left : ∀ k ∈ st.leaveVoice, k < st.given ∧ ∀ q ∈ st.queue.map Prod.fst, k < q

theorem InOrder.snoc {e : Entry} (h : InOrder log)
    (hlast : ∀ ks ok, e = .wrote (.voiceLeave ks) ok →
    ∀ j ok', Entry.wrote (.frame j .voiceJoin) ok' ∈ log → ∀ k ∈ ks, j < k) :
      InOrder (log ++ [e]) := by
  intro pre ks ok post heq
  rcases snoc_split heq with ⟨rfl, he, rfl⟩ | ⟨mid, rfl, hlog⟩
  · exact hlast ks ok he
  · exact h pre ks ok mid hlog

/-- What a step writes or hears, unless it is a join or a leave, is beside the point. -/
theorem Served.aside {e : Entry} (h : Served st) (hlog : st'.log = st.log ++ [e])
    (hjoin : ∀ j ok, e ≠ .wrote (.frame j .voiceJoin) ok)
    (hleft : ∀ ks ok, e ≠ .wrote (.voiceLeave ks) ok)
    (hleave : st'.leaveVoice = st.leaveVoice) (hqueue : st'.queue = st.queue)
    (hgiven : st'.given = st.given) :
    Served st' := by
  have hmem (j : ℕ) (ok : Bool) (hj : Entry.wrote (.frame j .voiceJoin) ok ∈ st'.log) :
      Entry.wrote (.frame j .voiceJoin) ok ∈ st.log := by
    rw [hlog] at hj
    rcases List.mem_append.mp hj with hj | hj
    · exact hj
    · exact absurd (List.mem_singleton.mp hj).symm (hjoin j ok)
  refine ⟨?_, fun j ok hj => ?_, ?_, ?_, fun j ok hj => ?_, ?_⟩
  · rw [hlog]
    exact h.order.snoc fun ks ok he => absurd he (hleft ks ok)
  · rw [hleave]
    exact h.kept j ok (hmem j ok hj)
  · rw [hqueue]
    exact h.queued
  · rw [hqueue, hgiven]
    exact h.given
  · rw [hqueue, hgiven]
    exact h.joined j ok (hmem j ok hj)
  · rw [hqueue, hgiven, hleave]
    exact h.left

theorem Served.same (h : Served st) (hlog : st'.log = st.log)
    (hleave : st'.leaveVoice = st.leaveVoice)
    (hqueue : st'.queue = st.queue) (hgiven : st'.given = st.given) : Served st' := by
  refine ⟨?_, ?_, ?_, ?_, ?_, ?_⟩
  · rw [hlog]
    exact h.order
  · rw [hlog, hleave]
    exact h.kept
  · rw [hqueue]
    exact h.queued
  · rw [hqueue, hgiven]
    exact h.given
  · rw [hlog, hqueue, hgiven]
    exact h.joined
  · rw [hleave, hqueue, hgiven]
    exact h.left

/-- A leave that goes out, or is tried, comes after the joins that did. -/
theorem Served.leave (h : Served st) (ok : Bool) :
    Served (st.write (.voiceLeave st.leaveVoice) ok) := by
  have hmem (j : ℕ) (ok' : Bool)
      (hj : Entry.wrote (.frame j .voiceJoin) ok' ∈ st.log ++
        [.wrote (.voiceLeave st.leaveVoice) ok]) :
      Entry.wrote (.frame j .voiceJoin) ok' ∈ st.log := by
    rcases List.mem_append.mp hj with hj | hj
    · exact hj
    · cases List.mem_singleton.mp hj
  refine ⟨?_, fun j ok hj => h.kept j ok (hmem j ok hj), h.queued, h.given,
    fun j ok hj => h.joined j ok (hmem j ok hj), h.left⟩
  apply h.order.snoc
  intro ks ok he j ok' hj k hk
  cases he
  exact h.kept j ok' hj k hk

theorem ends_frame (st : State) (outcome : Outcome) : (st.ends outcome).leaveVoice = st.leaveVoice ∧
    (st.ends outcome).queue = st.queue ∧ (st.ends outcome).given = st.given := by
  have hpause (st : State) : st.pause.leaveVoice = st.leaveVoice ∧ st.pause.queue = st.queue ∧
      st.pause.given = st.given := by
    rw [State.pause]
    split <;> exact ⟨rfl, rfl, rfl⟩
  cases outcome with
  | shutdown => exact ⟨rfl, rfl, rfl⟩
  | dropped => exact hpause st
  | restart immediate =>
    cases immediate with
    | true => exact ⟨rfl, rfl, rfl⟩
    | false => exact hpause _
  | reauth => exact hpause _

theorem Served.ends (h : Served st) (outcome : Outcome) : Served (st.ends outcome) :=
  h.same (log_ends st outcome) (ends_frame st outcome).1 (ends_frame st outcome).2.1
    (ends_frame st outcome).2.2

theorem Served.sendLeave (h : Served st) : Served (st.sendLeave ok) := by
  rw [State.sendLeave]
  split
  · have hwrote := h.leave true
    exact ⟨hwrote.order, by simp, hwrote.queued, hwrote.given, hwrote.joined, by simp⟩
  · exact (h.leave false).ends .dropped

theorem Served.hear (h : Served st) : Served (st.hear resuming ready beat f ok) := by
  rw [State.hear]
  dsimp only
  split
  · exact h.aside rfl (by simp) (by simp) rfl rfl rfl
  · split
    · exact h.aside rfl (by simp) (by simp) rfl rfl rfl
    · apply Served.sendLeave
      exact h.aside rfl (by simp) (by simp) rfl rfl rfl
  · apply Served.ends
    exact h.aside rfl (by simp) (by simp) rfl rfl rfl

/-- The first command of the queue is served: all that were served came before it, and the rest
after. -/
structure Next (st : State) (k : ℕ) : Prop where
  served : Served st
  joined : ∀ j ok, Entry.wrote (.frame j .voiceJoin) ok ∈ st.log → j < k
  left : ∀ k' ∈ st.leaveVoice, k' < k
  given : k < st.given
  queued : ∀ q ∈ st.queue.map Prod.fst, k < q

theorem Served.next {cmd : Cmd} {queue : List (ℕ × Cmd)} (h : Served st)
    (hqueue : st.queue = (k, cmd) :: queue) :
    Next { st with queue := queue } k := by
  have hqueued := h.queued
  have hgiven := h.given
  have hjoined := h.joined
  have hleft := h.left
  rw [hqueue, List.map_cons] at hqueued hgiven hjoined hleft
  rw [List.pairwise_cons] at hqueued
  refine ⟨⟨h.order, h.kept, hqueued.2, fun q hq => hgiven q (.tail _ hq), ?_, ?_⟩, ?_, ?_,
    hgiven k (.head _), hqueued.1⟩
  · exact fun j ok hj => ⟨(hjoined j ok hj).1, fun q hq => (hjoined j ok hj).2 q (.tail _ hq)⟩
  · exact fun k' hk' => ⟨(hleft k' hk').1, fun q hq => (hleft k' hk').2 q (.tail _ hq)⟩
  · exact fun j ok hj => (hjoined j ok hj).2 k (.head _)
  · exact fun k' hk' => (hleft k' hk').2 k (.head _)

theorem Next.keep (h : Next st k) : Served { st with leaveVoice := st.leaveVoice ++ [k] } := by
  refine ⟨h.served.order, fun j ok hj k' hk' => ?_, h.served.queued, h.served.given,
    h.served.joined, fun k' hk' => ?_⟩
  · rcases List.mem_append.mp hk' with hk' | hk'
    · exact h.served.kept j ok hj k' hk'
    · rw [List.mem_singleton.mp hk']
      exact h.joined j ok hj
  · rcases List.mem_append.mp hk' with hk' | hk'
    · exact h.served.left k' hk'
    · rw [List.mem_singleton.mp hk']
      exact ⟨h.given, h.queued⟩

theorem Next.frame {frame : ClientFrame} (h : Next st k)
    (hjoin : frame = .voiceJoin → st.leaveVoice = []) :
    Served (st.write (.frame k frame) ok) := by
  by_cases hframe : frame = .voiceJoin
  · subst hframe
    have hnone := hjoin rfl
    refine ⟨?_, ?_, h.served.queued, h.served.given, fun j ok' hj => ?_, h.served.left⟩
    · exact h.served.order.snoc fun ks ok he => by cases he
    · intro j ok' hj k' hk'
      have hk' : k' ∈ st.leaveVoice := hk'
      rw [hnone] at hk'
      cases hk'
    · rcases List.mem_append.mp hj with hj | hj
      · exact h.served.joined j ok' hj
      · cases List.mem_singleton.mp hj
        exact ⟨h.given, h.queued⟩
  · refine h.served.aside rfl (fun j ok' he => ?_) nofun rfl rfl rfl
    cases he
    exact hframe rfl

theorem Next.serveOpen {cmd : Cmd} (h : Next st k)
    (hjoin : cmd = .send .voiceJoin → st.leaveVoice = []) :
    Served (st.serveOpen ready k ok cmd) := by
  cases cmd with
  | token => exact h.served.same rfl rfl rfl rfl
  | send frame =>
    have hframe (ok : Bool) : Served (st.write (.frame k frame) ok) :=
      h.frame fun heq => hjoin (congrArg Cmd.send heq)
    rw [State.serveOpen]
    split
    · exact hframe true
    · exact (hframe false).ends .dropped
  | leaveVoice =>
    rw [State.serveOpen]
    split
    · exact h.keep.sendLeave
    · exact h.keep
  | retry => exact h.served
  | shutdown => exact h.served.ends .shutdown

theorem Next.serveWaiting (h : Next st k) (stopOnToken : Bool) (cmd : Cmd) :
    Served (st.serveWaiting stopOnToken k cmd) := by
  cases cmd with
  | token => cases stopOnToken <;> exact h.served.same rfl rfl rfl rfl
  | send frame => exact h.served
  | leaveVoice => exact h.keep
  | retry => cases stopOnToken <;> exact h.served.same rfl rfl rfl rfl
  | shutdown => exact h.served.ends .shutdown

/-- A command more waits behind the rest. -/
theorem Served.give (h : Served st) (cmd : Cmd) :
    Served { st with queue := st.queue ++ [(st.given, cmd)], given := st.given + 1 } := by
  have hmem (q : ℕ) (hq : q ∈ (st.queue ++ [(st.given, cmd)]).map Prod.fst) :
      q ∈ st.queue.map Prod.fst ∨ q = st.given := by
    rw [List.map_append, List.mem_append] at hq
    exact hq.imp_right List.mem_singleton.mp
  refine ⟨h.order, h.kept, ?_, fun q hq => ?_, fun j ok hj => ⟨?_, fun q hq => ?_⟩,
    fun k hk => ⟨?_, fun q hq => ?_⟩⟩
  · rw [List.map_append, List.pairwise_append]
    refine ⟨h.queued, List.pairwise_singleton _ _, fun q hq q' hq' => ?_⟩
    rw [List.mem_singleton.mp hq']
    exact h.given q hq
  · rcases hmem q hq with hq | rfl
    · exact Nat.lt_succ_of_lt (h.given q hq)
    · exact Nat.lt_succ_self _
  · exact Nat.lt_succ_of_lt (h.joined j ok hj).1
  · rcases hmem q hq with hq | rfl
    · exact (h.joined j ok hj).2 q hq
    · exact (h.joined j ok hj).1
  · exact Nat.lt_succ_of_lt (h.left k hk).1
  · rcases hmem q hq with hq | rfl
    · exact (h.left k hk).2 q hq
    · exact (h.left k hk).1

theorem Served.quiet (h : Served st) (hquiet : Quiet st st') : Served st' := by
  have hlog : Served { st with log := st'.log } := by
    rcases hquiet.log with heq | ⟨written, ok, heq, hown⟩
    · exact h.same heq rfl rfl rfl
    · refine h.aside heq (fun j ok he => ?_) (fun ks ok he => ?_) rfl rfl rfl
      · rcases hown with rfl | ⟨s, rfl⟩ <;> cases he
      · rcases hown with rfl | ⟨s, rfl⟩ <;> cases he
  rcases hquiet.queue with heq | ⟨cmd, heq, hgiven⟩
  · have hmore : Served { st with log := st'.log, given := st'.given } := by
      refine ⟨hlog.order, hlog.kept, hlog.queued, fun q hq => ?_,
        fun j ok hj => ⟨?_, (hlog.joined j ok hj).2⟩, fun k hk => ⟨?_, (hlog.left k hk).2⟩⟩
      · exact Nat.lt_of_lt_of_le (hlog.given q hq) hquiet.given
      · exact Nat.lt_of_lt_of_le (hlog.joined j ok hj).1 hquiet.given
      · exact Nat.lt_of_lt_of_le (hlog.left k hk).1 hquiet.given
    exact hmore.same rfl hquiet.leaveVoice heq rfl
  · exact (hlog.give cmd).same rfl hquiet.leaveVoice heq hgiven

theorem Served.advance (h : Served st) (hok : JoinsAfter st event)
    (hs : advance st event = some st') : Served st' := by
  cases event with
  | incoming f ok =>
    dsimp only [CoreGateway.advance] at hs
    split at hs
    · cases hs
      exact h.hear
    · cases hs
  | serve ok =>
    dsimp only [CoreGateway.advance] at hs
    split at hs
    · cases hs
    · next k cmd queue hqueue =>
      split at hs
      · next hphase =>
        cases hs
        refine (h.next hqueue).serveOpen fun hjoin => hok ?_ ?_
        · rw [hphase]
          rfl
        · rw [hqueue, hjoin]
          rfl
      · cases hs
        exact (h.next hqueue).serveWaiting true cmd
      · cases hs
        exact (h.next hqueue).serveWaiting false cmd
      · cases hs
  | _ => exact h.quiet (advance_quiet hs (by simp) (by simp))

theorem served_run (hmeets : machine.Meets JoinsAfter events) (hr : machine.run events = some st) :
    Served st := by
  have hstart : Served machine.start := by
    refine ⟨?_, nofun, .nil, nofun, nofun, nofun⟩
    intro pre ks ok post heq
    cases pre <;> cases heq
  exact machine.invariant_of_meets hstart (fun _ _ _ h hok hs => h.advance hok hs) hmeets hr

end Order

section Sent
variable {st st' : State} {event : Event} {resuming ready ok : Bool} {beat : Beat} {f : Incoming}
  {k : ℕ}
  {events : List Event}

/-- A leave asked for waits to be served, is kept, or has been sent. -/
def Asked (k : ℕ) (st : State) : Prop :=
  (k, Cmd.leaveVoice) ∈ st.queue ∨ k ∈ st.leaveVoice ∨
    ∃ ks, Entry.wrote (.voiceLeave ks) true ∈ st.log ∧ k ∈ ks

/-- No leave is kept while a socket is ready. -/
def Unkept (st : State) : Prop := st.phase.isReady = true → st.leaveVoice = []

theorem ends_unkept (st : State) (outcome : Outcome) : Unkept (st.ends outcome) := by
  intro hready
  rw [ends_ready] at hready
  cases hready

theorem sendLeave_unkept (st : State) (ok : Bool) : Unkept (st.sendLeave ok) := by
  rw [State.sendLeave]
  split
  · exact fun _ => rfl
  · exact ends_unkept _ _

theorem Unkept.advance (h : Unkept st) (hs : advance st event = some st') : Unkept st' := by
  cases event with
  | incoming f ok =>
    dsimp only [CoreGateway.advance] at hs
    split at hs
    · next resuming ready beat hphase =>
      cases hs
      rw [State.hear]
      dsimp only
      split
      · intro hready
        apply h
        rw [hphase]
        exact hready
      · split
        -- Ready, with no leave kept: there is none to send.
        · next hnone => exact fun _ => hnone
        · exact sendLeave_unkept _ _
      · exact ends_unkept _ _
    · cases hs
  | serve ok =>
    dsimp only [CoreGateway.advance] at hs
    split at hs
    · cases hs
    · next k cmd queue _ =>
      split at hs
      · next resuming ready beat hphase =>
        cases hs
        cases cmd with
        | send frame =>
          rw [State.serveOpen]
          split
          · exact h
          · exact ends_unkept _ _
        | leaveVoice =>
          rw [State.serveOpen]
          split
          · exact sendLeave_unkept _ _
          -- A leave is kept only while the socket is not ready.
          · next hnot =>
            intro hready
            have hready : st.phase.isReady = true := hready
            rw [hphase] at hready
            exact absurd hready hnot
        | shutdown => exact ends_unkept _ _
        | _ => exact h
      -- Without a socket that is open nothing is ready, whatever is served.
      · next hphase =>
        cases hs
        cases cmd with
        | shutdown => exact ends_unkept _ _
        | token =>
          intro hready
          have hready : false = true := hready
          cases hready
        | _ =>
          intro hready
          have hready : st.phase.isReady = true := hready
          rw [hphase] at hready
          cases hready
      · next hphase =>
        cases hs
        cases cmd with
        | shutdown => exact ends_unkept _ _
        | retry =>
          intro hready
          have hready : false = true := hready
          cases hready
        | _ =>
          intro hready
          have hready : st.phase.isReady = true := hready
          rw [hphase] at hready
          cases hready
      · cases hs
  -- The other events keep what is kept, and make no socket ready.
  | _ =>
    have hquiet := advance_quiet hs (by simp) (by simp)
    intro hready
    rw [hquiet.leaveVoice]
    exact h (hquiet.ready hready).1

theorem Asked.more (more : List Entry) (h : Asked k st) (hlog : st'.log = st.log ++ more)
    (hqueue : ∀ one ∈ st.queue, one ∈ st'.queue)
    (hleave : ∀ k ∈ st.leaveVoice, k ∈ st'.leaveVoice) : Asked k st' := by
  rcases h with hwaits | hkept | ⟨ks, hsent, hk⟩
  · exact .inl (hqueue _ hwaits)
  · exact .inr (.inl (hleave k hkept))
  · refine .inr (.inr ⟨ks, ?_, hk⟩)
    rw [hlog]
    exact List.mem_append_left _ hsent

theorem Asked.ends (h : Asked k st) (outcome : Outcome) : Asked k (st.ends outcome) := by
  obtain ⟨hleave, hqueue, -⟩ := ends_frame st outcome
  refine h.more [] ((log_ends st outcome).trans (List.append_nil _).symm) ?_ ?_
  · rw [hqueue]
    exact fun _ h => h
  · rw [hleave]
    exact fun _ h => h

theorem Asked.write (h : Asked k st) (written : Written) (ok : Bool) :
    Asked k (st.write written ok) :=
  h.more _ rfl (fun _ h => h) fun _ h => h

/-- A leave that goes out is no longer kept, and one that fails to is. -/
theorem Asked.sendLeave (h : Asked k st) : Asked k (st.sendLeave ok) := by
  rw [State.sendLeave]
  split
  · rcases h with hwaits | hkept | ⟨ks, hsent, hk⟩
    · exact .inl hwaits
    · exact .inr (.inr ⟨st.leaveVoice, List.mem_append_right _ (.head _), hkept⟩)
    · exact .inr (.inr ⟨ks, List.mem_append_left _ hsent, hk⟩)
  · exact (h.write _ _).ends .dropped

/-- One command is served, and it may be this. -/
theorem Asked.next {k' : ℕ} {cmd : Cmd} {queue : List (ℕ × Cmd)} (h : Asked k st)
    (hqueue : st.queue = (k', cmd) :: queue) :
    Asked k { st with queue := queue } ∨ k' = k ∧ cmd = .leaveVoice := by
  rcases h with hwaits | hkept | hsent
  · rw [hqueue] at hwaits
    rcases List.mem_cons.mp hwaits with heq | hwaits
    · cases heq
      exact .inr ⟨rfl, rfl⟩
    · exact .inl (.inl hwaits)
  · exact .inl (.inr (.inl hkept))
  · exact .inl (.inr (.inr hsent))

theorem Asked.kept {k' : ℕ} (h : Asked k st ∨ k' = k) :
    Asked k { st with leaveVoice := st.leaveVoice ++ [k'] } := by
  rcases h with hbefore | rfl
  · refine hbefore.more [] (List.append_nil _).symm (fun _ h => h) fun _ h =>
      List.mem_append_left _ h
  · exact .inr (.inl (List.mem_append_right _ (.head _)))

theorem Asked.advance (h : Asked k st) (hs : advance st event = some st') : Asked k st' := by
  cases event with
  | incoming f ok =>
    dsimp only [CoreGateway.advance] at hs
    split at hs
    · cases hs
      rw [State.hear]
      dsimp only
      split
      · exact h.more _ rfl (fun _ h => h) fun _ h => h
      · split
        · exact h.more _ rfl (fun _ h => h) fun _ h => h
        · apply Asked.sendLeave
          exact h.more _ rfl (fun _ h => h) fun _ h => h
      · apply Asked.ends
        exact h.more _ rfl (fun _ h => h) fun _ h => h
    · cases hs
  | serve ok =>
    dsimp only [CoreGateway.advance] at hs
    split at hs
    · cases hs
    · next k' cmd queue hqueue =>
      have hnext := h.next hqueue
      have hother (hcmd : cmd ≠ .leaveVoice) : Asked k { st with queue := queue } :=
        hnext.resolve_right fun heq => hcmd heq.2
      split at hs
      · cases hs
        cases cmd with
        | token => exact hother (by simp)
        | send frame =>
          rw [State.serveOpen]
          split
          · exact (hother (by simp)).write _ _
          · exact ((hother (by simp)).write _ _).ends .dropped
        -- The leave that is served goes out, or is kept for the next socket.
        | leaveVoice =>
          rw [State.serveOpen]
          split
          · exact (Asked.kept (hnext.imp_right And.left)).sendLeave
          · exact Asked.kept (hnext.imp_right And.left)
        | retry => exact hother (by simp)
        | shutdown => exact (hother (by simp)).ends .shutdown
      · cases hs
        cases cmd with
        | leaveVoice => exact Asked.kept (hnext.imp_right And.left)
        | shutdown => exact (hother (by simp)).ends .shutdown
        | _ => exact hother (by simp)
      · cases hs
        cases cmd with
        | leaveVoice => exact Asked.kept (hnext.imp_right And.left)
        | shutdown => exact (hother (by simp)).ends .shutdown
        | _ => exact hother (by simp)
      · cases hs
  -- The other events take nothing off the queue and nothing of what is kept.
  | _ =>
    have hquiet := advance_quiet hs (by simp) (by simp)
    have hqueue : ∀ one ∈ st.queue, one ∈ st'.queue := by
      intro one hone
      rcases hquiet.queue with heq | ⟨cmd, heq, -⟩
      · exact heq ▸ hone
      · rw [heq]
        exact List.mem_append_left _ hone
    obtain ⟨more, hlog⟩ := log_grows hs
    refine h.more more hlog hqueue ?_
    rw [hquiet.leaveVoice]
    exact fun _ h => h

/-- A leave is kept no further than the next socket that is ready: what makes one ready sends it
first. -/
theorem ready_sends {ks : List ℕ} (hbefore : st.phase = .live resuming false beat)
    (hkept : st.leaveVoice = ks)
    (hsome : ks ≠ []) (hs : advance st (.incoming f ok) = some st')
    (hready : st'.phase.isReady = true) :
    ∃ told replay, st'.log = st.log ++ [.told told replay, .wrote (.voiceLeave ks) true] := by
  subst hkept
  rw [advance, hbefore] at hs
  cases hs
  rw [State.hear] at hready ⊢
  dsimp only at hready ⊢
  split at hready
  · cases hready
  · rw [if_neg hsome] at hready ⊢
    rw [State.sendLeave] at hready ⊢
    split at hready
    · next hok =>
      rw [if_pos hok]
      exact ⟨_, _, List.append_assoc _ _ _⟩
    · rw [ends_ready] at hready
      cases hready
  · rw [ends_ready] at hready
    cases hready

end Sent

section Leaving
variable {st : State} {events : List Event}

/-- In a run in which no join goes out while a leave is kept, no leave goes out after a join given
later. In every run a leave that is asked for is sent by the time a socket is ready and it has been
served, and is the first thing that goes out on a socket that becomes ready. -/
theorem leave_in_order (hr : machine.run events = some st) :
    (machine.Meets JoinsAfter events → InOrder st.log) ∧
    (∀ k, (k, Cmd.leaveVoice) ∈ st.queue → ∀ more t, machine.runFrom st more = some t →
      (k, Cmd.leaveVoice) ∉ t.queue → t.phase.isReady = true →
      ∃ ks, Entry.wrote (.voiceLeave ks) true ∈ t.log ∧ k ∈ ks) ∧
    ∀ f ok st' resuming beat, st.phase = .live resuming false beat → st.leaveVoice ≠ [] →
      advance st (.incoming f ok) = some st' → st'.phase.isReady = true →
      ∃ told replay,
        st'.log = st.log ++ [.told told replay, .wrote (.voiceLeave st.leaveVoice) true] := by
  refine ⟨fun hmeets => (served_run hmeets hr).order, fun k hk more t hrun hserved hready => ?_, ?_⟩
  · have hunkept : Unkept st :=
      machine.invariant nofun (fun _ _ _ h hs => h.advance hs) ⟨events, hr⟩
    have hkeeps : Asked k t ∧ Unkept t := machine.keeps_from (I := fun t => Asked k t ∧ Unkept t)
      (fun _ _ _ h _ hs => ⟨h.1.advance hs, h.2.advance hs⟩) ⟨.inl hk, hunkept⟩
        (machine.meetsFrom_true st more) hrun
    rcases hkeeps.1 with hwaits | hkept | hsent
    · exact absurd hwaits hserved
    · rw [hkeeps.2 hready] at hkept
      cases hkept
    · exact hsent
  · exact fun f ok st' resuming beat hbefore hsome hs hready =>
      ready_sends hbefore rfl hsome hs hready

instance {st : State} {event : Event} : Decidable (JoinsAfter st event) := by
  refine Event.casesOn event ?_ ?_ ?_ ?_ ?_ ?_ ?_ ?_
    ?_ <;> intros <;> unfold JoinsAfter <;> infer_instance

theorem none_whole : ∀ n ∈ (none : Option ℕ), n ≤ U64_MAX := by simp

def plain (event : ServerEvent) : Incoming := ⟨none, some event, none_whole⟩

def first : Incoming := ⟨some 1, some (.ready 7), fun _ h => Option.some.inj h ▸ (by decide)⟩

/-- A session is on, and its socket is gone and back, but not yet resumed. -/
def returning : List Event :=
  [.check true, .dialed true, .hello (some (.hello 30000)) true, .incoming first true, .lost,
    .check true, .dialed true, .hello (some (.hello 30000)) true]

/-- A leave is asked for, the session is resumed, and a join is given. -/
def leaving : List Event :=
  returning ++ [.give .leaveVoice, .serve true, .incoming (plain (.resumed 0)) true,
    .give (.send .voiceJoin), .serve true]

theorem leave_in_order_returned : ∃ st, machine.run leaving = some st ∧ InOrder st.log ∧
    Entry.wrote (.voiceLeave [0]) true ∈ st.log ∧ Entry.wrote (.frame 1 .voiceJoin) true ∈ st.log :=
  ⟨_, rfl,
    (@leave_in_order _ leaving rfl).1 (by decide +kernel), by decide +kernel, by decide +kernel⟩

/-- What goes out when the join is given before the session is resumed. -/
def crossed : List Entry :=
  [.wrote (.opener .identify) true, .told (.ready 7 1) false, .wrote (.opener (.resume 7 1)) true,
    .wrote (.frame 1 .voiceJoin) true, .told .resumed false, .wrote (.voiceLeave [0]) true]

theorem leave_after_join :
    ∃ st, machine.run (returning ++ [.give .leaveVoice, .serve true, .give (.send .voiceJoin),
      .serve true, .incoming (plain (.resumed 0)) true]) = some st ∧ st.log = crossed ∧
        ¬ InOrder st.log := by
  have hcrossed : ¬ InOrder crossed := by
    intro h
    have hbefore := h (crossed.take 5) [0] true [] rfl 1 true (by decide) 0 (.head _)
    cases hbefore
  exact ⟨_, rfl, rfl, hcrossed⟩

end Leaving
end Linger.CoreGateway
