import Linger.CoreGatewaySequence

/-! Frames marked as replayed are the ones the server replays; and what holds of a session's numbers
in every run. -/
namespace Linger.CoreGateway
open StepMachine

section Marks
variable {st st' : State} {session : Option Session} {beat : Beat} {resuming ready ok : Bool}
  {f : Incoming}
  {event : Event} {k due : ℕ}

/-- A server that sends nothing numbered before `ready` or `resumed`, and after `resumed` just the
frames it announced, in order, before anything new. -/
def Replays (st : State) : Event → Prop
  | .incoming f _ =>
    match st.phase with
    | .live _ ready _ => f.sequenced = true → ready = true ∧
        (0 < st.due → ∀ open' ∈ st.session, ∀ last ∈ open'.lastSeq, f.s = some (last + 1))
    | _ => True
  | _ => True

/-- The replay under way ends as many numbers on as are still due. -/
def Fits (session : Option Session) (due : ℕ) : Prop :=
  ∀ open' ∈ session, ∀ last ∈ open'.lastSeq,
    if due = 0 then ∀ through ∈ open'.replayThrough, through ≤ last
    else open'.replayThrough = some (min (last + due) U64_MAX)

structure Marked (st : State) : Prop where
  marks : ∀ s mark replay, Entry.told (.counted s (some mark)) replay ∈ st.log → mark = replay
  whole : ∀ last ∈ seqOf st.session, last ≤ U64_MAX
  fits : st.phase.isReady = true → Fits st.session st.due

/-- A frame with a number that is neither the connection's own nor `ready` is counted. -/
theorem sequenced_of {seq : ℕ} (hs : f.s = some seq) (hack : f.event = some .heartbeatAck → False)
    (hinvalid : ∀ unauthenticated, f.event = some (.invalidSession unauthenticated) → False)
    (hresumed : ∀ replayed, f.event = some (.resumed replayed) → False)
    (hhello : ∀ interval, f.event = some (.hello interval) → False)
    (hready : ∀ id, f.event = some (.ready id) → False) : f.sequenced = true := by
  rw [Incoming.sequenced, hs]
  cases hevent : f.event with
  | none => rfl
  | some one =>
    cases one with
    | dispatch op => rfl
    | hello interval => exact absurd hevent (hhello interval)
    | heartbeatAck => exact absurd hevent hack
    | invalidSession unauthenticated => exact absurd hevent (hinvalid unauthenticated)
    | resumed replayed => exact absurd hevent (hresumed replayed)
    | ready id => exact absurd hevent (hready id)

/-- The number a counted frame has. -/
theorem apply_counted {s : ℕ} {frame : Option Bool} (hbegun : Begun session)
    (h : (apply session beat resuming f).told = .counted s frame) :
    f.sequenced = true ∧ f.s = some s ∧ ∃ open' last, session = some open' ∧
      open'.lastSeq = some last ∧ s = last + 1 ∧
      frame = f.event.map fun _ => open'.replayThrough.any fun through => decide (s ≤ through) := by
  rw [apply.eq_def] at h
  split at h
  · cases h
  · cases h
  · cases resuming <;> cases h
  · cases h
  · next event hack hinvalid hresumed hhello =>
    split at h
    · cases h
    · next seq hs =>
      split at h
      · cases h
      · cases h
      · next open' hready =>
        split at h
        · next previous hprevious =>
          split at h
          · cases h
          · split at h
            · cases h
            · cases h
              have hnumbered := sequenced_of hs hack hinvalid hresumed hhello hready
              exact ⟨hnumbered, hs, open', previous, rfl, hprevious, by omega, rfl⟩
        · next hnone =>
          have hsome := hbegun open' rfl
          rw [hnone] at hsome
          cases hsome

/-- One number on, one frame fewer is due. -/
theorem Fits.next {open' : Session} {last : ℕ} (h : Fits (some open') due)
    (hlast : open'.lastSeq = some last) :
    Fits (some { open' with lastSeq := some (last + 1) }) (due - 1) := by
  have hdue := h open' rfl last hlast
  intro after hafter last' hlast'
  cases hafter
  cases hlast'
  by_cases hnone : due = 0
  · subst hnone
    rw [if_pos rfl] at hdue ⊢
    exact fun through hthrough => Nat.le_succ_of_le (hdue through hthrough)
  · rw [if_neg hnone] at hdue
    by_cases hone : due - 1 = 0
    · rw [if_pos hone]
      intro through hthrough
      have heq : through = min (last + due) U64_MAX := Option.some.inj (hthrough.symm.trans hdue)
      calc
        through = min (last + due) U64_MAX := heq
        _ ≤ last + due := Nat.min_le_left _ _
        _ = last + 1 := by
          omega
    · rw [if_neg hone]
      refine hdue.trans ?_
      have hsame : last + due = last + 1 + (due - 1) := by
        omega
      rw [hsame]

theorem fits_new {id seq : ℕ} : Fits (some ⟨id, some seq, none⟩) 0 := by
  intro open' hopen last hlast
  cases hopen
  rw [if_pos rfl]
  exact nofun

/-- What `resumed` announces is what is due. -/
theorem fits_resumed (session : Option Session) (replayed : ℕ) : Fits
    (session.map fun open' =>
      { open' with replayThrough := open'.lastSeq.map fun last => min (last + replayed) U64_MAX })
    replayed := by
  intro open' hopen last hlast
  obtain ⟨before, hbefore, rfl⟩ := Option.map_eq_some_iff.mp hopen
  have hthrough : (before.lastSeq.map fun last => min (last + replayed) U64_MAX) =
      some (min (last + replayed) U64_MAX) := by
    rw [Option.mem_def.mp hlast, Option.map_some]
  by_cases hnone : replayed = 0
  · subst hnone
    rw [if_pos rfl]
    intro through hmem
    rw [Option.mem_def.mp hthrough] at hmem
    cases hmem
    exact Nat.min_le_left _ _
  · rw [if_neg hnone]
    exact hthrough

/-- A frame that makes a socket ready says what is due. -/
theorem fits_ready (h : (apply st.session beat resuming f).step = .ready) :
    Fits (apply st.session beat resuming f).session (st.dueAfter f) := by
  rw [apply.eq_def] at h ⊢
  split at h
  · cases h
  · cases h
  · next replayed hev =>
    rw [State.dueAfter, hev]
    exact fits_resumed st.session replayed
  · cases h
  · split at h
    · cases h
    · next seq hs =>
      split at h
      · next id hev =>
        have hdue : st.dueAfter f = 0 := by
          rw [State.dueAfter, hev, hs]
          rfl
        rw [hdue]
        exact fits_new
      · cases h
      · split at h
        · split at h
          · cases h
          · split at h <;> cases h
        · cases h

/-- A frame leaves the replay under way as long as what is still due. -/
theorem fits_hear (h : Fits st.session st.due) (hbegun : Begun st.session)
    (hsequenced : f.sequenced = true →
      0 < st.due → ∀ open' ∈ st.session, ∀ last ∈ open'.lastSeq, f.s = some (last + 1)) :
    Fits (apply st.session beat resuming f).session (st.dueAfter f) := by
  have hplain (hsame : st.dueAfter f = st.due) : Fits st.session (st.dueAfter f) := by
    rw [hsame]
    exact h
  rw [apply.eq_def]
  split
  · next hev =>
    apply hplain
    rw [State.dueAfter, hev]
    dsimp only
    rw [Incoming.sequenced, hev, Bool.and_false]
    rfl
  · next hev =>
    apply hplain
    rw [State.dueAfter, hev]
    dsimp only
    rw [Incoming.sequenced, hev, Bool.and_false]
    rfl
  · next replayed hev =>
    rw [State.dueAfter, hev]
    exact fits_resumed st.session replayed
  · next hev =>
    apply hplain
    rw [State.dueAfter, hev]
    dsimp only
    rw [Incoming.sequenced, hev, Bool.and_false]
    rfl
  · next event hack hinvalid hresumed hhello =>
    split
    · next hs =>
      apply hplain
      rw [State.dueAfter, Incoming.sequenced, hs]
      split
      · next hev => exact absurd hev (hresumed _)
      · rfl
      · rfl
    · next seq hs =>
      split
      · next hev =>
        have hdue : st.dueAfter f = 0 := by
          rw [State.dueAfter, hev, hs]
          rfl
        rw [hdue]
        exact fits_new
      · intro open' hopen
        cases hopen
      · next open' hsession hready =>
        have hnumbered := sequenced_of hs hack hinvalid hresumed hhello hready
        have hdue : st.dueAfter f = st.due - 1 := by
          rw [State.dueAfter]
          split
          · next hev => exact absurd hev (hresumed _)
          · next hev => exact absurd hev (hready _)
          · rw [hnumbered]
            rfl
        rw [hdue]
        rw [hsession] at h
        obtain ⟨previous, hprevious⟩ := Option.isSome_iff_exists.mp (hbegun open' hsession)
        have hnext (hpos : 0 < st.due) : seq = previous + 1 := by
          have hseq := hsequenced hnumbered hpos open' hsession previous hprevious
          rw [hs] at hseq
          exact Option.some.inj hseq
        -- what isn't the next number is none that is due
        have hnone (hnot : seq ≠ previous + 1) : Fits (some open') (st.due - 1) := by
          have hdone : st.due = 0 := by
            by_contra hpos
            exact hnot (hnext (Nat.pos_of_ne_zero hpos))
          rw [hdone] at h ⊢
          exact h
        rw [hprevious]
        dsimp only
        split
        · next hold =>
          rw [hsession]
          exact hnone (by omega)
        · next hnew =>
          split
          · next hgap =>
            rw [hsession]
            exact hnone (by omega)
          · have hseq : seq = previous + 1 := by
              omega
            subst hseq
            exact h.next hprevious

/-- A session's number is one it had, or the frame's. -/
theorem apply_seq {last : ℕ} (h : last ∈ seqOf (apply session beat resuming f).session) :
    last ∈ seqOf session ∨ f.s = some last := by
  rw [apply.eq_def] at h
  split at h
  · exact .inl h
  · exact .inl h
  · cases session with
    | none => cases h
    | some open' => exact .inl h
  · exact .inl h
  · split at h
    · exact .inl h
    · next seq hs =>
      have hcounted (h : last ∈ some seq) : f.s = some last := hs.trans h
      split at h
      · exact .inr (hcounted h)
      · exact .inl h
      · split at h
        · split at h
          · exact .inl h
          · split at h
            · exact .inl h
            · exact .inr (hcounted h)
        · exact .inr (hcounted h)

/-- What is handed over is marked as replayed just when the server was to replay it. -/
theorem mark_due {s : ℕ} {mark : Bool} (hm : Marked st) (hstep : InStep st)
    (hphase : st.phase = .live resuming ready beat)
    (hok : Replays st (.incoming f ok))
    (htold : (apply st.session beat resuming f).told = .counted s (some mark)) :
    mark = decide (0 < st.due) := by
  obtain ⟨hnumbered, hs, open', last, hsession, hlast, rfl, hmark⟩ :=
    apply_counted hstep.begun htold
  rw [Replays, hphase] at hok
  have hready : st.phase.isReady = true := by
    rw [hphase]
    exact (hok hnumbered).1
  have hfits := hm.fits hready open' hsession last hlast
  have hbound : last + 1 ≤ U64_MAX := f.whole (last + 1) hs
  have hmark : mark = open'.replayThrough.any fun through => decide (last + 1 ≤ through) := by
    obtain ⟨event, -, hsome⟩ := Option.map_eq_some_iff.mp hmark.symm
    exact hsome.symm
  rw [hmark]
  by_cases hnone : st.due = 0
  · rw [if_pos hnone] at hfits
    rw [hnone]
    cases hthrough : open'.replayThrough with
    | none => rfl
    | some through =>
      have hle := hfits through hthrough
      exact decide_eq_decide.mpr (by omega)
  · rw [if_neg hnone] at hfits
    rw [hfits, Option.any_some, decide_eq_decide, Nat.le_min]
    omega

theorem Marked.quiet (h : Marked st) (hquiet : Quiet st st') : Marked st' := by
  refine ⟨fun s mark replay hmem => ?_, fun last hlast => ?_, fun hready => ?_⟩
  · rcases hquiet.log with heq | ⟨written, ok, heq, -⟩
    · rw [heq] at hmem
      exact h.marks s mark replay hmem
    · rw [heq, List.mem_append] at hmem
      rcases hmem with hmem | hmem
      · exact h.marks s mark replay hmem
      · cases List.mem_singleton.mp hmem
  · rcases hquiet.session with heq | heq
    · rw [heq] at hlast
      exact h.whole last hlast
    · rw [heq] at hlast
      cases hlast
  · obtain ⟨hbefore, hdue, hsession⟩ := hquiet.ready hready
    rw [hdue, hsession]
    exact h.fits hbefore

theorem Marked.sendLeave (h : Marked st) : Marked (st.sendLeave ok) := by
  have hmarks (s : ℕ) (mark replay : Bool)
      (hmem : Entry.told (.counted s (some mark)) replay ∈ st.log ++
        [.wrote (.voiceLeave st.leaveVoice) ok]) :
      mark = replay := by
    rcases List.mem_append.mp hmem with hmem | hmem
    · exact h.marks s mark replay hmem
    · cases List.mem_singleton.mp hmem
  rw [State.sendLeave]
  split
  · next hok =>
    subst hok
    exact ⟨hmarks, h.whole, h.fits⟩
  · next hok =>
    rw [Bool.not_eq_true] at hok
    subst hok
    have hwrote : Marked (st.write (.voiceLeave st.leaveVoice) false) := ⟨hmarks, h.whole, h.fits⟩
    exact hwrote.quiet (quiet_ends _ _)

theorem Marked.hear (h : Marked st) (hstep : InStep st)
    (hphase : st.phase = .live resuming ready beat)
    (hok : Replays st (.incoming f ok)) : Marked (st.hear resuming ready beat f ok) := by
  have hmarks (s : ℕ) (mark replay : Bool) (hmem : Entry.told (.counted s (some mark)) replay ∈
      st.log ++ [.told (apply st.session beat resuming f).told (decide (0 < st.due))]) :
        mark = replay := by
    rcases List.mem_append.mp hmem with hmem | hmem
    · exact h.marks s mark replay hmem
    · obtain ⟨htold, hreplay⟩ := Entry.told.inj (List.mem_singleton.mp hmem)
      rw [hreplay]
      exact mark_due h hstep hphase hok htold.symm
  have hwhole : ∀ last ∈ seqOf (apply st.session beat resuming f).session, last ≤ U64_MAX := by
    intro last hlast
    rcases apply_seq hlast with hbefore | hs
    · exact h.whole last hbefore
    · exact f.whole last hs
  have hfits (hready : ready = true) :
      Fits (apply st.session beat resuming f).session (st.dueAfter f) := by
    refine fits_hear (h.fits ?_) hstep.begun fun hnumbered => ?_
    · rw [hphase]
      exact hready
    · rw [Replays, hphase] at hok
      exact (hok hnumbered).2
  rw [State.hear]
  dsimp only
  split
  · exact ⟨hmarks, hwhole, hfits⟩
  · next hstepped =>
    split
    · exact ⟨hmarks, hwhole, fun _ => fits_ready hstepped⟩
    · apply Marked.sendLeave
      exact ⟨hmarks, hwhole, fun _ => fits_ready hstepped⟩
  · refine Marked.quiet ⟨hmarks, hwhole, fun hready => hfits ?_⟩ (quiet_ends _ _)
    have hready : st.phase.isReady = true := hready
    rw [hphase] at hready
    exact hready

theorem Marked.serveOpen (h : Marked st) (cmd : Cmd) : Marked (st.serveOpen ready k ok cmd) := by
  have hwrote (frame : ClientFrame) (ok : Bool) : Marked (st.write (.frame k frame) ok) := by
    refine ⟨fun s mark replay hmem => ?_, h.whole, h.fits⟩
    rcases List.mem_append.mp hmem with hmem | hmem
    · exact h.marks s mark replay hmem
    · cases List.mem_singleton.mp hmem
  cases cmd with
  | send frame =>
    rw [State.serveOpen]
    split
    · exact hwrote frame true
    · exact (hwrote frame false).quiet (quiet_ends _ _)
  | leaveVoice =>
    have hkept : Marked { st with leaveVoice := st.leaveVoice ++ [k] } := ⟨h.marks, h.whole, h.fits⟩
    rw [State.serveOpen]
    split
    · exact hkept.sendLeave
    · exact hkept
  | shutdown => exact h.quiet (quiet_ends st .shutdown)
  | _ => exact ⟨h.marks, h.whole, h.fits⟩

theorem Marked.serveWaiting (h : Marked st) (stopOnToken : Bool) (cmd : Cmd) :
    Marked (st.serveWaiting stopOnToken k cmd) := by
  cases cmd with
  | shutdown => exact h.quiet (quiet_ends st .shutdown)
  | send frame => exact h
  | leaveVoice => exact ⟨h.marks, h.whole, h.fits⟩
  | _ => cases stopOnToken <;> exact ⟨h.marks, h.whole, by first | exact h.fits | exact nofun⟩

theorem Marked.advance (h : Marked st) (hstep : InStep st) (hok : Replays st event)
    (hs : advance st event = some st') : Marked st' := by
  cases event with
  | incoming f ok =>
    dsimp only [CoreGateway.advance] at hs
    split at hs
    · next hphase =>
      cases hs
      exact h.hear hstep hphase hok
    · cases hs
  | serve ok =>
    dsimp only [CoreGateway.advance] at hs
    split at hs
    · cases hs
    · next k cmd queue _ =>
      have hserved : Marked { st with queue := queue } := ⟨h.marks, h.whole, h.fits⟩
      split at hs
      · cases hs
        exact hserved.serveOpen cmd
      · cases hs
        exact hserved.serveWaiting true cmd
      · cases hs
        exact hserved.serveWaiting false cmd
      · cases hs
  | _ => exact h.quiet (advance_quiet hs nofun nofun)

theorem marked_run {events : List Event} (hmeets : machine.Meets Replays events)
    (hr : machine.run events = some st) :
    Marked st := by
  have hstart : Marked machine.start ∧ InStep machine.start :=
    ⟨⟨nofun, nofun, nofun⟩, .start, nofun⟩
  refine (machine.invariant_of_meets (I := fun st => Marked st ∧ InStep st) hstart ?_ hmeets hr).1
  exact fun st event st' h hok hs => ⟨h.1.advance h.2 hok hs, h.2.advance hs⟩

end Marks

section Whole
variable {st st' : State} {f : Incoming} {beat : Beat} {resuming ready ok : Bool}
  {events : List Event}

/-- Since each session's start the numbers counted rise one by one from its own, and what is handed
over is counted, each number once; before the first, none is. -/
structure Sequenced (log : List Entry) : Prop where
  since : ∀ pre id s replay mid post, log = pre ++ .told (.ready id s) replay :: (mid ++ post) →
    (∀ e ∈ mid, e.starts = false) → numbers mid = List.range' (s + 1) (numbers mid).length ∧
      (handed mid).Sublist (numbers mid) ∧ (handed mid).Nodup
  before : ∀ pre post, log = pre ++ post → (∀ e ∈ pre, e.starts = false) → numbers pre = []

theorem sequenced_run (hr : machine.run events = some st) : Sequenced st.log := by
  have hcounted := (inStep_run hr).counted
  constructor
  · intro pre id s replay mid post hlog hstarts
    rw [← List.cons_append, ← List.append_assoc] at hlog
    obtain ⟨last, hleft⟩ := hcounted.left hlog
    have hnumbers := (hleft.since rfl hstarts).1
    refine ⟨hnumbers, handed_sublist, handed_sublist.nodup ?_⟩
    rw [hnumbers]
    exact List.nodup_range'
  · intro pre post hlog hstarts
    obtain ⟨last, hleft⟩ := hcounted.left hlog
    exact (hleft.none_before hstarts).1

/-- What a sequenced frame is to a session: behind it, past its next number, or its next number. -/
theorem apply_sequenced {open' : Session} {previous n : ℕ} (hlast : open'.lastSeq = some previous)
    (hnumbered : f.sequenced = true) (hs : f.s = some n) : apply (some open') beat resuming f =
      if n ≤ previous then ⟨some open', beat, .idle, .nothing⟩
      else if previous + 1 < n then ⟨some open', beat, .out (.restart true), .nothing⟩
      else count open' beat f n := by
  rw [Incoming.sequenced] at hnumbered
  rw [apply.eq_def]
  cases hevent : f.event with
  | none =>
    dsimp only
    rw [hs]
    dsimp only
    rw [hlast]
  | some event =>
    cases event with
    | dispatch op =>
      dsimp only
      rw [hs]
      dsimp only
      rw [hlast]
    | _ =>
      rw [hevent, Bool.and_false] at hnumbered
      cases hnumbered

/-- A number that is skipped ends the session, and the next socket identifies. -/
theorem gap_restarts {open' : Session} {previous n : ℕ}
    (hphase : st.phase = .live resuming ready beat)
    (hsession : st.session = some open') (hlast : open'.lastSeq = some previous)
    (hnumbered : f.sequenced = true)
    (hs : f.s = some n) (hgap : previous + 1 < n) : ∃ st', advance st (.incoming f ok) = some st' ∧
      st'.session = none ∧ st'.log = st.log ++ [.told .nothing (decide (0 < st.due))] ∧
      ∀ more t, machine.runFrom st' more = some t → Fresh st'.log t := by
  have happly := @apply_sequenced f beat resuming open' previous n hlast hnumbered hs
  rw [if_neg (by omega), if_pos hgap] at happly
  refine ⟨st.hear resuming ready beat f ok, ?_, ?_⟩
  · rw [advance, hphase]
  · rw [State.hear, hsession, happly]
    refine ⟨rfl, rfl, fun more t hrun => ?_⟩
    refine machine.keeps_from (fun _ _ _ h _ hs => Fresh.advance h hs) ?_
      (machine.meetsFrom_true _ more) hrun
    exact ⟨[], (List.append_nil _).symm, .inl ⟨rfl, rfl, rfl⟩⟩

/-- Each frame that is due is counted, and handed over marked if it is one of ours. -/
theorem due_counted (hstep : InStep st) (hphase : st.phase = .live resuming ready beat)
    (hsome : st.session.isSome = true)
    (hdue : 0 < st.due) (hnumbered : f.sequenced = true) (hm : Marked st)
    (hok : Replays st (.incoming f ok)) :
    ∃ st' n, advance st (.incoming f ok) = some st' ∧
      st'.log = st.log ++ [.told (.counted n (f.event.map fun _ => true)) true] := by
  obtain ⟨open', hsession⟩ := Option.isSome_iff_exists.mp hsome
  obtain ⟨previous, hprevious⟩ := Option.isSome_iff_exists.mp (hstep.begun open' hsession)
  have hreplays := hok
  rw [Replays, hphase] at hreplays
  have hs := (hreplays hnumbered).2 hdue open' hsession previous hprevious
  have happly :=
    @apply_sequenced f beat resuming open' previous (previous + 1) hprevious hnumbered hs
  rw [if_neg (by omega), if_neg (by omega), ← hsession] at happly
  refine ⟨st.hear resuming ready beat f ok, previous + 1, ?_, ?_⟩
  · rw [advance, hphase]
  · have hmark : ∀ mark, (f.event.map fun _ => open'.replayThrough.any fun through =>
        decide (previous + 1 ≤ through)) =
        some mark → mark = true := by
      intro mark hmark
      have htold :
          (apply st.session beat resuming f).told = .counted (previous + 1) (some mark) := by
        rw [happly, count, hmark]
      rw [mark_due hm hstep hphase hok htold, decide_eq_true hdue]
    rw [State.hear, happly, decide_eq_true hdue]
    change st.log ++ [.told (.counted (previous + 1) (f.event.map fun _ => _)) true] = _
    cases hevent : f.event with
    | none => rfl
    | some event =>
      rw [hevent] at hmark
      have hall : (open'.replayThrough.any fun through => decide (previous + 1 ≤ through)) = true :=
        hmark _ rfl
      rw [hall]

/-- In every run, of whatever frames: a session's numbers are counted one by one from its `ready`'s
own, and handed over only as they are counted; a skipped number ends the session, and the next
socket identifies; and from a server that replays just what it announces, what is handed over marked
as replayed is just what it replays. -/
theorem handed_in_step (hr : machine.run events = some st) :
    Sequenced st.log ∧
    (∀ f ok resuming ready beat open' previous n, st.phase = .live resuming ready beat →
      st.session = some open' →
      open'.lastSeq = some previous → f.sequenced = true → f.s = some n → previous + 1 < n →
      ∃ st', advance st (.incoming f ok) = some st' ∧ st'.session = none ∧
        st'.log = st.log ++ [.told .nothing (decide (0 < st.due))] ∧
        ∀ more t, machine.runFrom st' more = some t → Fresh st'.log t) ∧
    (machine.Meets Replays events →
      (∀ s mark replay, Entry.told (.counted s (some mark)) replay ∈ st.log → mark = replay) ∧
      ∀ f ok resuming ready beat, st.phase = .live resuming ready beat → st.session.isSome = true →
        0 < st.due →
        f.sequenced = true → Replays st (.incoming f ok) →
        ∃ st' n, advance st (.incoming f ok) = some st' ∧
          st'.log = st.log ++ [.told (.counted n (f.event.map fun _ => true)) true]) := by
  refine ⟨sequenced_run hr, fun f ok resuming ready beat open' previous n => gap_restarts,
    fun hmeets => ?_⟩
  have hmarked := marked_run hmeets hr
  refine ⟨hmarked.marks, fun f ok resuming ready beat hphase hsome hdue hnumbered hok => ?_⟩
  exact due_counted (inStep_run hr) hphase hsome hdue hnumbered hmarked hok

end Whole

section Examples

instance {st : State} {event : Event} : Decidable (Replays st event) := by
  cases event with
  | incoming f ok =>
    dsimp only [Replays]
    split <;> infer_instance
  | _ => exact isTrue trivial

def numbered (n : ℕ) (h : n ≤ U64_MAX) (event : Option ServerEvent) : Incoming :=
  ⟨some n, event, fun _ hm => Option.some.inj hm ▸ h⟩

/-- A session loses its socket, resumes, and hears two frames again, one of a kind it doesn't know,
before a new one. -/
def carryingOn : List Event :=
  [.check true, .dialed true, .hello (some (.hello 30000)) true,
    .incoming (numbered 1 (by decide) (some (.ready 7))) true,
    .incoming (numbered 2 (by decide) (some (.dispatch 0))) true,
    .lost, .check true, .dialed true, .hello (some (.hello 30000)) true,
    .incoming ⟨none, some (.resumed 2), nofun⟩ true, .incoming (numbered 3 (by decide) none) true,
    .incoming (numbered 4 (by decide) (some (.dispatch 0))) true,
    .incoming (numbered 5 (by decide) (some (.dispatch 0))) true]

theorem handed_in_step_carried : ∃ st, machine.run carryingOn = some st ∧ Sequenced st.log ∧
    handed st.log = [2, 4, 5] ∧ openers st.log = [.identify, .resume 7 2] ∧
    ∀ s mark replay, Entry.told (.counted s (some mark)) replay ∈ st.log → mark = replay :=
  ⟨_, rfl, (@handed_in_step _ carryingOn rfl).1, by decide +kernel, by decide +kernel,
    ((@handed_in_step _ carryingOn rfl).2.2 (by decide +kernel)).1⟩

end Examples
end Linger.CoreGateway
