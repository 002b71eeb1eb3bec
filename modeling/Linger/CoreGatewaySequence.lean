import Linger.CoreGateway

/-! The numbers of a session: counted one after another, and handed over as they are counted. -/
namespace Linger.CoreGateway
open StepMachine

section Record

def Entry.number : Entry → Option ℕ
  | .told (.counted s _) _ => some s
  | _ => none

/-- The number of a frame that was handed over. -/
def Entry.handed : Entry → Option ℕ
  | .told (.counted s (some _)) _ => some s
  | _ => none

/-- A session's start. -/
def Entry.starts : Entry → Bool
  | .told (.ready _ _) _ => true
  | _ => false

def Entry.opener : Entry → Option Opener
  | .wrote (.opener opener) _ => some opener
  | _ => none

def numbers (log : List Entry) : List ℕ := log.filterMap Entry.number
def handed (log : List Entry) : List ℕ := log.filterMap Entry.handed
def openers (log : List Entry) : List Opener := log.filterMap Entry.opener

/-- A record in which numbers are counted one by one from each session's start, as far as `last`. -/
inductive Counted : List Entry → Option ℕ → Prop
  | start : Counted [] none
  | ready {log : List Entry} {last : Option ℕ} (id s : ℕ) (replay : Bool) (h : Counted log last) :
    Counted (log ++ [.told (.ready id s) replay]) (some s)
  | next {log : List Entry} {last : ℕ} (frame : Option Bool) (replay : Bool)
      (h : Counted log (some last)) :
    Counted (log ++ [.told (.counted (last + 1) frame) replay]) (some (last + 1))
  | other {log : List Entry} {last : Option ℕ} (e : Entry) (h : Counted log last)
      (hnumber : e.number = none)
    (hstarts : e.starts = false) : Counted (log ++ [e]) last
  | ended {log : List Entry} {last : Option ℕ} (h : Counted log last) : Counted log none

variable {log pre mid post : List Entry} {last : Option ℕ} {id s : ℕ} {replay : Bool}

theorem handed_number {e : Entry} {n : ℕ} (h : e.handed = some n) : e.number = some n := by
  cases e with
  | wrote written ok => cases h
  | told told replay =>
    cases told with
    | counted s frame =>
      cases frame with
      | none => cases h
      | some mark => exact h
    | _ => cases h

theorem handed_sublist : (handed log).Sublist (numbers log) := by
  induction log with
  | nil => exact .slnil
  | cons e log ih =>
    rw [handed, numbers, List.filterMap_cons, List.filterMap_cons]
    cases hhanded : e.handed with
    | none =>
      cases e.number with
      | none => exact ih
      | some n => exact .cons n ih
    | some n =>
      rw [handed_number hhanded]
      exact .cons_cons n ih

/-- What is recorded up to some time is such a record too. -/
theorem Counted.left (h : Counted log last) :
    ∀ {pre post}, log = pre ++ post → ∃ last', Counted pre last' := by
  have hsnoc {log pre post : List Entry} {e : Entry} {last' : Option ℕ}
      (hwhole : Counted (log ++ [e]) last')
      (ih : ∀ {pre post}, log = pre ++ post →
        ∃ last', Counted pre last') (heq : log ++ [e] = pre ++ post) :
      ∃ last', Counted pre last' := by
    rcases List.eq_nil_or_concat post with rfl | ⟨post, e', rfl⟩
    · rw [List.append_nil] at heq
      exact ⟨last', heq ▸ hwhole⟩
    · rw [List.concat_eq_append, ← List.append_assoc] at heq
      exact ih (List.append_inj' heq rfl).1
  induction h with
  | start =>
    intro pre post heq
    rw [(List.append_eq_nil_iff.mp heq.symm).1]
    exact ⟨none, .start⟩
  | ready id s replay h ih => exact hsnoc (.ready id s replay h) ih
  | next frame replay h ih => exact hsnoc (.next frame replay h) ih
  | other e h hnumber hstarts ih => exact hsnoc (.other e h hnumber hstarts) ih
  | ended h ih => exact ih

/-- Before the first session nothing is counted. -/
theorem Counted.none_before (h : Counted log last) (hstarts : ∀ e ∈ log, e.starts = false) :
    numbers log = [] ∧ last = none := by
  induction h with
  | start => exact ⟨rfl, rfl⟩
  | ready id s replay h ih =>
    have hstart := hstarts (.told (.ready id s) replay) (List.mem_append_right _ (.head _))
    cases hstart
  | next frame replay h ih =>
    have hnone := (ih fun e he => hstarts e (List.mem_append_left _ he)).2
    cases hnone
  | other e h hnumber hstart ih =>
    obtain ⟨hnumbers, hlast⟩ := ih fun e he => hstarts e (List.mem_append_left _ he)
    refine ⟨?_, hlast⟩
    rw [numbers, List.filterMap_append, List.filterMap_cons, hnumber]
    rw [numbers] at hnumbers
    rw [hnumbers]
    rfl
  | ended h ih => exact ⟨(ih hstarts).1, rfl⟩

theorem snoc_split {e : Entry} {x : Entry} (heq : log ++ [e] = pre ++ x :: mid) :
    mid = [] ∧ e = x ∧ log = pre ∨ ∃ mid', mid = mid' ++ [e] ∧ log = pre ++ x :: mid' := by
  rcases List.eq_nil_or_concat mid with rfl | ⟨mid', e', rfl⟩
  · obtain ⟨hlog, he⟩ := List.append_inj' heq rfl
    cases he
    exact .inl ⟨rfl, rfl, hlog⟩
  · rw [List.concat_eq_append, ← List.cons_append, ← List.append_assoc] at heq
    obtain ⟨hlog, he⟩ := List.append_inj' heq rfl
    cases he
    exact .inr ⟨mid', List.concat_eq_append, hlog⟩

/-- Since a session's start, each number is one more than the last. -/
theorem Counted.since (h : Counted log last) (heq : log = pre ++ .told (.ready id s) replay :: mid)
    (hstarts : ∀ e ∈ mid, e.starts = false) :
    numbers mid = List.range' (s + 1) (numbers mid).length ∧
      ∀ n ∈ last, n = s + (numbers mid).length := by
  have hleft {mid : List Entry} {e : Entry} (hstarts : ∀ e' ∈ mid ++ [e], e'.starts = false) :
      ∀ e' ∈ mid, e'.starts = false := fun e' he' => hstarts e' (List.mem_append_left _ he')
  induction h generalizing mid with
  | start => cases pre <;> cases heq
  | ready id' s' replay' h ih =>
    rcases snoc_split heq with ⟨rfl, he, -⟩ | ⟨mid, rfl, -⟩
    · cases he
      exact ⟨rfl, fun n hn => (Option.some.inj hn).symm⟩
    · have hstart := hstarts (.told (.ready id' s') replay') (List.mem_append_right _ (.head _))
      cases hstart
  | @next log last frame replay' h ih =>
    rcases snoc_split heq with ⟨rfl, he, -⟩ | ⟨mid, rfl, hlog⟩
    · cases he
    · obtain ⟨hnumbers, hlast⟩ := ih hlog (hleft hstarts)
      have hlast := hlast last rfl
      have hsnoc : numbers (mid ++ [.told (.counted (last + 1) frame) replay']) =
          numbers mid ++ [last + 1] := by
        rw [numbers, List.filterMap_append]
        rfl
      constructor
      · calc
          numbers (mid ++ [.told (.counted (last + 1) frame) replay']) =
            numbers mid ++ [last + 1] := hsnoc
          _ = List.range' (s + 1) (numbers mid).length ++ [s + 1 + 1 * (numbers mid).length] := by
            rw [← hnumbers]
            congr 2
            omega
          _ = List.range' (s + 1) ((numbers mid).length + 1) := List.range'_concat.symm
          _ = _ := by
            rw [hsnoc, List.length_append]
            rfl
      · intro n hn
        cases hn
        rw [hsnoc, List.length_append, List.length_singleton]
        omega
  | other e h hnumber hstart ih =>
    rcases snoc_split heq with ⟨rfl, rfl, -⟩ | ⟨mid, rfl, hlog⟩
    · cases hstart
    · have hsnoc : numbers (mid ++ [e]) = numbers mid := by
        rw [numbers, List.filterMap_append, List.filterMap_cons, hnumber]
        exact List.append_nil _
      rw [hsnoc]
      exact ih hlog (hleft hstarts)
  | ended h ih => exact ⟨(ih heq hstarts).1, nofun⟩

end Record

section Counting
variable {st st' : State} {log : List Entry} {session : Option Session} {beat : Beat}
  {resuming ready ok : Bool}
  {f : Incoming} {k : ℕ}

def seqOf (session : Option Session) : Option ℕ := session.bind Session.lastSeq

/-- A session has counted from its `ready` on. -/
def Begun (session : Option Session) : Prop := ∀ open' ∈ session, open'.lastSeq.isSome = true

/-- What one frame does to the numbers of a session: nothing, start them, or count the next. -/
theorem apply_cases (h : Begun session) : Begun (apply session beat resuming f).session ∧
    (((apply session beat resuming f).told = .nothing ∨
      (apply session beat resuming f).told = .resumed) ∧
        seqOf (apply session beat resuming f).session = seqOf session ∨
      (∃ id s, (apply session beat resuming f).told = .ready id s ∧
        seqOf (apply session beat resuming f).session = some s) ∨
      ∃ last frame, seqOf session = some last ∧
        (apply session beat resuming f).told = .counted (last + 1) frame ∧
        seqOf (apply session beat resuming f).session = some (last + 1)) := by
  rw [apply.eq_def]
  split
  · exact ⟨h, .inl ⟨.inl rfl, rfl⟩⟩
  · exact ⟨h, .inl ⟨.inl rfl, rfl⟩⟩
  · refine ⟨?_, .inl ⟨?_, ?_⟩⟩
    · intro open' hopen
      obtain ⟨before, hbefore, rfl⟩ := Option.map_eq_some_iff.mp hopen
      exact h before hbefore
    · cases resuming
      · exact .inl rfl
      · exact .inr rfl
    · cases session <;> rfl
  · exact ⟨h, .inl ⟨.inl rfl, rfl⟩⟩
  · split
    · exact ⟨h, .inl ⟨.inl rfl, rfl⟩⟩
    · next seq _ =>
      split
      · refine ⟨fun open' hopen => ?_, .inr (.inl ⟨_, _, rfl, rfl⟩)⟩
        cases hopen
        rfl
      · exact ⟨h, .inl ⟨.inl rfl, rfl⟩⟩
      · next open' _ =>
        split
        · next previous hprevious =>
          split
          · exact ⟨h, .inl ⟨.inl rfl, rfl⟩⟩
          · split
            · exact ⟨h, .inl ⟨.inl rfl, rfl⟩⟩
            · have hseq : seq = previous + 1 := by
                omega
              subst hseq
              refine ⟨fun after hafter => ?_, .inr (.inr ⟨previous, _, hprevious, rfl, rfl⟩)⟩
              cases hafter
              rfl
        · next hnone =>
          have hsome := h open' rfl
          rw [hnone] at hsome
          cases hsome

/-- The record counts as far as the session has. -/
structure InStep (st : State) : Prop where
  counted : Counted st.log (seqOf st.session)
  begun : Begun st.session

theorem InStep.quiet (h : InStep st) (hquiet : Quiet st st') : InStep st' := by
  have hlog : Counted st'.log (seqOf st.session) := by
    rcases hquiet.log with heq | ⟨written, ok, heq, -⟩
    · rw [heq]
      exact h.counted
    · rw [heq]
      exact h.counted.other _ rfl rfl
  rcases hquiet.session with heq | heq
  · exact ⟨heq ▸ hlog, heq ▸ h.begun⟩
  · constructor
    · rw [heq]
      exact hlog.ended
    · rw [heq]
      exact nofun

theorem InStep.write (h : InStep st) (written : Written) (ok : Bool) :
    InStep (st.write written ok) :=
  ⟨h.counted.other (.wrote written ok) rfl rfl, h.begun⟩

theorem InStep.ends (h : InStep st) (outcome : Outcome) : InStep (st.ends outcome) :=
  h.quiet (quiet_ends st outcome)

theorem InStep.sendLeave (h : InStep st) : InStep (st.sendLeave ok) := by
  rw [State.sendLeave]
  split
  · exact ⟨(h.write (.voiceLeave st.leaveVoice) true).counted, h.begun⟩
  · exact (h.write (.voiceLeave st.leaveVoice) false).ends .dropped

theorem InStep.hear (h : InStep st) : InStep (st.hear resuming ready beat f ok) := by
  have hheard :
      Counted (st.log ++ [.told (apply st.session beat resuming f).told (decide (0 < st.due))])
      (seqOf (apply st.session beat resuming f).session) := by
    rcases (@apply_cases st.session beat resuming f h.begun).2 with
      ⟨htold, hseq⟩ | ⟨id, s, htold, hseq⟩ |
      ⟨last, frame, hlast, htold, hseq⟩
    · rw [hseq]
      rcases htold with htold | htold
      · rw [htold]
        exact h.counted.other _ rfl rfl
      · rw [htold]
        exact h.counted.other _ rfl rfl
    · rw [htold, hseq]
      exact h.counted.ready id s _
    · have hcounted := h.counted
      rw [hlast] at hcounted
      rw [htold, hseq]
      exact hcounted.next frame _
  have hbegun := (@apply_cases st.session beat resuming f h.begun).1
  rw [State.hear]
  dsimp only
  split
  · exact ⟨hheard, hbegun⟩
  · split
    · exact ⟨hheard, hbegun⟩
    · apply InStep.sendLeave
      exact ⟨hheard, hbegun⟩
  · apply InStep.ends
    exact ⟨hheard, hbegun⟩

theorem InStep.serveOpen (h : InStep st) (cmd : Cmd) : InStep (st.serveOpen ready k ok cmd) := by
  cases cmd with
  | token => exact ⟨h.counted, h.begun⟩
  | send frame =>
    rw [State.serveOpen]
    split
    · exact h.write _ _
    · exact (h.write _ _).ends .dropped
  | leaveVoice =>
    have hkept : InStep { st with leaveVoice := st.leaveVoice ++ [k] } := ⟨h.counted, h.begun⟩
    rw [State.serveOpen]
    split
    · exact hkept.sendLeave
    · exact hkept
  | retry => exact h
  | shutdown => exact h.ends .shutdown

theorem InStep.serveWaiting (h : InStep st) (stopOnToken : Bool) (cmd : Cmd) :
    InStep (st.serveWaiting stopOnToken k cmd) := by
  cases cmd with
  | token => cases stopOnToken <;> exact ⟨h.counted, h.begun⟩
  | send frame => exact h
  | leaveVoice => exact ⟨h.counted, h.begun⟩
  | retry => cases stopOnToken <;> exact ⟨h.counted, h.begun⟩
  | shutdown => exact h.ends .shutdown

theorem InStep.advance {event : Event} (h : InStep st) (hs : advance st event = some st') :
    InStep st' := by
  cases event with
  | incoming f ok =>
    dsimp only [CoreGateway.advance] at hs
    split at hs
    · cases hs
      exact h.hear
    · cases hs
  | serve ok =>
    dsimp only [CoreGateway.advance] at hs
    split at hs
    · cases hs
    · next k cmd queue _ =>
      have hserved : InStep { st with queue := queue } := ⟨h.counted, h.begun⟩
      split at hs
      · cases hs
        exact hserved.serveOpen cmd
      · cases hs
        exact hserved.serveWaiting true cmd
      · cases hs
        exact hserved.serveWaiting false cmd
      · cases hs
  | _ => exact h.quiet (advance_quiet hs nofun nofun)

theorem inStep_run {events : List Event} (hr : machine.run events = some st) : InStep st :=
  machine.invariant ⟨.start, nofun⟩ (fun _ _ _ h hs => h.advance hs) ⟨events, hr⟩

end Counting

section Starting
variable {st st' : State} {base : List Entry} {event : Event} {resuming ready ok : Bool}
  {beat : Beat} {k : ℕ}

theorem log_ends (st : State) (outcome : Outcome) : (st.ends outcome).log = st.log := by
  have hpause (st : State) : st.pause.log = st.log := by
    rw [State.pause]
    split <;> rfl
  cases outcome with
  | shutdown => rfl
  | dropped => exact hpause st
  | restart immediate =>
    cases immediate with
    | true => rfl
    | false => exact hpause _
  | reauth => exact hpause _

theorem log_sendLeave (st : State) (ok : Bool) :
    (st.sendLeave ok).log = st.log ++ [.wrote (.voiceLeave st.leaveVoice) ok] := by
  rw [State.sendLeave]
  split
  · next hok =>
    rw [hok]
    rfl
  · next hok =>
    rw [log_ends, Bool.not_eq_true] at *
    rw [hok]
    rfl

/-- The record only grows. -/
theorem log_grows (hs : advance st event = some st') : ∃ more, st'.log = st.log ++ more := by
  have hkept (st : State) : ∃ more, st.log = st.log ++ more := ⟨[], (List.append_nil _).symm⟩
  cases event with
  | incoming f ok =>
    dsimp only [advance] at hs
    split at hs
    · cases hs
      rw [State.hear]
      dsimp only
      split
      · exact ⟨_, rfl⟩
      · split
        · exact ⟨_, rfl⟩
        · rw [log_sendLeave]
          exact ⟨_, List.append_assoc _ _ _⟩
      · rw [log_ends]
        exact ⟨_, rfl⟩
    · cases hs
  | serve ok =>
    dsimp only [advance] at hs
    split at hs
    · cases hs
    · next k cmd queue _ =>
      split at hs
      · cases hs
        cases cmd with
        | send frame =>
          rw [State.serveOpen]
          split
          · exact ⟨_, rfl⟩
          · rw [log_ends]
            exact ⟨_, rfl⟩
        | leaveVoice =>
          rw [State.serveOpen]
          split
          · rw [log_sendLeave]
            exact ⟨_, rfl⟩
          · exact hkept st
        | shutdown =>
          rw [State.serveOpen, log_ends]
          exact hkept st
        | _ => exact hkept st
      · cases hs
        cases cmd <;> exact hkept st
      · cases hs
        cases cmd <;> exact hkept st
      · cases hs
  | _ =>
    rcases (advance_quiet hs nofun nofun).log with heq | ⟨written, ok, heq, -⟩
    · rw [heq]
      exact hkept st
    · exact ⟨_, heq⟩

/-- No socket is open and there is no session; or one was opened since, and identified first. -/
def Fresh (base : List Entry) (st : State) : Prop :=
  ∃ more, st.log = base ++ more ∧
    (openers more = [] ∧ st.session = none ∧ st.phase.isLive = false ∨
      (openers more).head? = some .identify)

theorem Fresh.advance (h : Fresh base st) (hs : advance st event = some st') : Fresh base st' := by
  obtain ⟨more, hlog, hnone | hfirst⟩ := h
  · obtain ⟨hopeners, hsession, hlive⟩ := hnone
    have hwaits {st₁ : State} (hlog₁ : st₁.log = st.log) (hsession₁ : st₁.session = st.session)
        (hlive₁ : st₁.phase.isLive = false) : Fresh base st₁ :=
      ⟨more, hlog₁.trans hlog, .inl ⟨hopeners, hsession₁.trans hsession, hlive₁⟩⟩
    cases event with
    | incoming f ok =>
      dsimp only [CoreGateway.advance] at hs
      split at hs
      · next hphase =>
        rw [hphase] at hlive
        cases hlive
      · cases hs
    | serve ok =>
      dsimp only [CoreGateway.advance] at hs
      split at hs
      · cases hs
      · next k cmd queue _ =>
        split at hs
        · next hphase =>
          rw [hphase] at hlive
          cases hlive
        · cases hs
          cases cmd <;> exact hwaits rfl rfl (by first | exact hlive | rfl)
        · cases hs
          cases cmd <;> exact hwaits rfl rfl (by first | exact hlive | rfl)
        · cases hs
    | _ =>
      have hquiet := advance_quiet hs nofun nofun
      have hsession' : st'.session = none := hquiet.session.elim (fun heq => heq.trans hsession) id
      have hopener : st.opener = .identify := by
        rw [State.opener, hsession]
      rcases hquiet.log with heq | ⟨written, ok, heq, hwritten⟩
      · refine ⟨more, heq.trans hlog, .inl ⟨hopeners, hsession', ?_⟩⟩
        by_contra hnot
        rcases hquiet.live ((Bool.not_eq_false _).mp hnot) with hbefore | ⟨ok, hwrote⟩
        · rw [hlive] at hbefore
          cases hbefore
        · rw [heq] at hwrote
          exact absurd hwrote (by simp)
      · rw [hlog, List.append_assoc] at heq
        refine ⟨more ++ [.wrote written ok], heq, ?_⟩
        rcases hwritten with rfl | ⟨s, rfl⟩
        · right
          rw [openers, List.filterMap_append, ← openers, hopeners, hopener]
          rfl
        · refine .inl ⟨?_, hsession', ?_⟩
          · rw [openers, List.filterMap_append, ← openers, hopeners]
            rfl
          · by_contra hnot
            rcases hquiet.live ((Bool.not_eq_false _).mp hnot) with hbefore | ⟨ok', hwrote⟩
            · rw [hlive] at hbefore
              cases hbefore
            · rw [hlog, List.append_assoc, heq] at hwrote
              have hsame := List.append_cancel_left (List.append_cancel_left hwrote)
              cases hsame
  · obtain ⟨rest, hrest⟩ := log_grows hs
    refine ⟨more ++ rest, by rw [hrest, hlog, List.append_assoc], .inr ?_⟩
    rw [openers, List.filterMap_append, List.head?_append, ← openers, hfirst]
    rfl

end Starting
end Linger.CoreGateway
