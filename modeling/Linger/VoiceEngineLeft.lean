import Linger.VoiceEngine

/-! In a run where nothing falls in a gap, whatever a call took or made is held by somebody who will
close it, so that once nothing is in flight leaving has left nothing, and a join one loop. -/
namespace Linger.VoiceEngine
open FiniteMap StepMachine TaskPool

/-- The change a join made, until it has stored its loops. -/
def Call.change : Call → Option ℕ
  | .joinTook change _ _ | .joinSpawned change => some change
  | _ => none

/-- The sending loop a call took, until it has aborted it. -/
def Call.took : Call → Option ℕ
  | .joinTook _ _ previous => previous
  | .leaving _ pump _ => pump
  | _ => none

/-- The sending loop a call spawned and nobody else holds. -/
def Call.spawned : Call → Option ℕ
  | .joinSpawned change => some change
  | _ => none

/-- The connection a call holds, until it has closed it or given it up. -/
def Call.conn : Call → Option ConnId
  | .leaving forward _ _ => forward
  | .closing conn _ | .made conn => some conn
  | _ => none

def Call.holds (change : ℕ) (call : Call) : Bool :=
  call.took = some change || call.spawned = some change

def Call.carries (conn : ConnId) (call : Call) : Bool := call.conn = some conn

/-- What a join that nothing came after has found or made. -/
def Ready (engine : Engine) : Call → Prop
  | .joinTook _ devices _ => engine.devices = some devices
  | .joinSpawned change =>
    ∃ devices, engine.devices = some devices ∧ engine.pumps[change]? = some ⟨devices, false⟩
  | _ => True

structure Placed (engine : Engine) (call : Call) : Prop where
  change : ∀ change, call.change = some change → change ≤ engine.changes
  ready : call.change = some engine.changes → engine.room ≠ none ∧ engine.pump = none ∧
    Ready engine call
  took : ∀ change, call.took = some change → change < engine.changes

structure Inv (engine : Engine) : Prop where
  fresh : ∀ id, engine.called ≤ id → engine.calls[id]? = none
  left : engine.room = none → engine.devices = none ∧ engine.pump = none ∧ engine.restarts = none ∧
    engine.forward = none
  joined : engine.room ≠ none → engine.pump = some engine.changes ∨
    Has engine.calls fun call => call.change = some engine.changes
  loop : ∀ change, engine.pump = some change → change = engine.changes ∧ ∃ devices,
    engine.devices = some devices ∧ engine.pumps[change]? = some ⟨devices, false⟩
  calls : All engine.calls (Placed engine)
  apart : Apart engine.calls Call.change
  owned : ∀ change pump, engine.pumps[change]? = some pump → pump.aborted = false →
    engine.pump = some change ∨ Has engine.calls (Call.holds change)
  conns : ∀ conn, conn < engine.made → conn ∈ engine.closed ∨ engine.forward = some conn ∨
    Has engine.calls (Call.carries conn)

section Steps
variable {engine : Engine} {id : ℕ} {old new : Call}

theorem Inv.fresh_goes (h : Inv engine) (hold : engine.calls[id]? = some old) :
    ∀ other, engine.called ≤ other → (engine.calls.insert id new)[other]? = none := by
  intro other hother
  have hne : other ≠ id := by
    rintro rfl
    rw [h.fresh other hother] at hold
    cases hold
  exact (insert_at _ _ _ _).trans ((if_neg hne).trans (h.fresh other hother))

theorem Inv.fresh_returns (h : Inv engine) :
    ∀ other, engine.called ≤ other → (engine.calls.erase id)[other]? = none := by
  intro other hother
  rw [erase_at]
  split
  · rfl
  · exact h.fresh other hother

theorem conns_split (h : Inv engine) (hold : engine.calls[id]? = some old) {conn : ConnId}
    (hlt : conn < engine.made) :
    conn ∈ engine.closed ∨ engine.forward = some conn ∨ old.conn = some conn ∨
      Others engine.calls id (Call.carries conn) := by
  rcases h.conns conn hlt with hclosed | hforward | hhas
  · exact Or.inl hclosed
  · exact Or.inr (Or.inl hforward)
  · rcases has_split hold hhas with hold' | hothers
    · exact Or.inr (Or.inr (Or.inl (by simpa [Call.carries] using hold')))
    · exact Or.inr (Or.inr (Or.inr hothers))

theorem holds_of_plain {change : ℕ} (h : old.change = none) :
    old.holds change = decide (old.took = some change) := by
  cases old <;> simp_all [Call.holds, Call.spawned, Call.change]

/-- A call about the connection alone goes on. -/
theorem Inv.conn_goes (h : Inv engine) (hold : engine.calls[id]? = some old)
    (forward : Option ConnId) (made : ℕ)
    (closed : List ConnId) (hchange : old.change = none) (hnew : new.change = none)
    (htook : new.took = old.took)
    (hnone : engine.room = none → forward = none)
    (hconns : ∀ conn, conn < made → conn ∈ closed ∨ forward = some conn ∨ new.conn = some conn ∨
      Others engine.calls id (Call.carries conn)) :
    Inv ({ engine with forward := forward, made := made, closed := closed }.goes id new) := by
  have hplaced := h.calls id old hold
  -- `left`, `joined` and `loop`: what joins hold has not changed.
  refine ⟨h.fresh_goes hold, ?_, ?_, h.loop, ?_, ?_, ?_, ?_⟩
  · intro hroom
    obtain ⟨hdevices, hpump, hrestarts, -⟩ := h.left hroom
    exact ⟨hdevices, hpump, hrestarts, hnone hroom⟩
  · intro hroom
    rcases h.joined hroom with hpump | hhas
    · exact Or.inl hpump
    · rcases has_split hold hhas with hold' | hothers
      · rw [hchange] at hold'
        cases of_decide_eq_true hold'
      · exact Or.inr (has_insert.mpr (Or.inr hothers))
  -- `calls` and `apart`: this call is still no join.
  · refine All.insert ?_ id ⟨?_, ?_, ?_⟩
    · exact fun other call hcall =>
        ⟨(h.calls other call hcall).change, (h.calls other call hcall).ready,
        (h.calls other call hcall).took⟩
    · exact fun change hcall => by rw [hnew] at hcall; cases hcall
    · exact fun hcall => by rw [hnew] at hcall; cases hcall
    · exact fun change hcall => hplaced.took change (htook ▸ hcall)
  · apply h.apart.insert
    exact fun change hcall => by rw [hnew] at hcall; cases hcall
  -- `owned`, and the connections, of which this call may now carry another.
  · intro change pump hpump haborted
    rcases h.owned change pump hpump haborted with hheld | hhas
    · exact Or.inl hheld
    · apply Or.inr
      apply has_insert.mpr
      rcases has_split hold hhas with hold' | hothers
      · rw [holds_of_plain hchange, ← htook, ← holds_of_plain hnew] at hold'
        exact Or.inl hold'
      · exact Or.inr hothers
  · intro conn hlt
    rcases hconns conn hlt with hclosed | hforward | hcarries | hothers
    · exact Or.inl hclosed
    · exact Or.inr (Or.inl hforward)
    · exact Or.inr (Or.inr (has_insert.mpr (Or.inl (by simpa [Call.carries] using hcarries))))
    · exact Or.inr (Or.inr (has_insert.mpr (Or.inr hothers)))

/-- Or returns, with nothing left to close. -/
theorem Inv.conn_returns (h : Inv engine) (hold : engine.calls[id]? = some old)
    (closed : List ConnId)
    (controls : VoiceControls) (hchange : old.change = none) (htook : old.took = none)
    (hconns : ∀ conn, conn < engine.made → conn ∈ closed ∨ engine.forward = some conn ∨
      Others engine.calls id (Call.carries conn)) :
    Inv ({ engine with closed := closed, controls := controls }.returns id) := by
  refine ⟨h.fresh_returns, h.left, ?_, h.loop, ?_, h.apart.erase id, ?_, hconns⟩
  · intro hroom
    rcases h.joined hroom with hpump | hhas
    · exact Or.inl hpump
    · rcases has_split hold hhas with hold' | hothers
      · rw [hchange] at hold'
        cases of_decide_eq_true hold'
      · exact Or.inr hothers
  · exact All.erase
      (fun other call hcall => ⟨(h.calls other call hcall).change, (h.calls other call hcall).ready,
      (h.calls other call hcall).took⟩) id
  · intro change pump hpump haborted
    rcases h.owned change pump hpump haborted with hheld | hhas
    · exact Or.inl hheld
    · rcases has_split hold hhas with hold' | hothers
      · rw [holds_of_plain hchange, htook] at hold'
        cases of_decide_eq_true hold'
      · exact Or.inr hothers

/-- After another change, a call is behind it. -/
theorem Placed.past {call : Call} (h : Placed engine call) {next : Engine}
    (hchanges : next.changes = engine.changes + 1) :
    Placed next call := by
  refine ⟨?_, ?_, ?_⟩
  · intro change hcall
    have := h.change change hcall
    omega
  · intro hcall
    have := h.change _ hcall
    omega
  · intro change hcall
    have := h.took change hcall
    omega

/-- What a call is to the loops that run, as long as the last join's stays. -/
theorem Placed.with_pumps {call : Call} (h : Placed engine call) {pumps : FMap ℕ Pump}
    {steering : List ℕ}
    {calls : FMap ℕ Call} (hkeep : call.change = some engine.changes → ∀ devices,
      engine.pumps[engine.changes]? = some ⟨devices, false⟩ →
        pumps[engine.changes]? = some ⟨devices, false⟩) :
    Placed { engine with pumps := pumps, steering := steering, calls := calls } call := by
  refine ⟨h.change, ?_, h.took⟩
  intro hcall
  obtain ⟨hroom, hpump, hready⟩ := h.ready hcall
  refine ⟨hroom, hpump, ?_⟩
  cases call with
  | joinSpawned change =>
    cases hcall
    obtain ⟨devices, hdevices, hrun⟩ := hready
    exact ⟨devices, hdevices, hkeep rfl devices hrun⟩
  | joinTook change devices previous => exact hready
  | _ => trivial

theorem abort_eq (engine : Engine) (pump : Option ℕ) :
    engine.abort pump = { engine with pumps := (engine.abort pump).pumps } := by
  cases pump <;> rfl

theorem abort_at (engine : Engine) (pump : Option ℕ) (change : ℕ) :
    (engine.abort pump).pumps[change]? =
    if pump = some change then (engine.pumps[change]?).map fun pump => { pump with aborted := true }
    else engine.pumps[change]? := by
  cases pump with
  | none => rfl
  | some other =>
    refine (modify_at _ _ _ _).trans ?_
    by_cases hother : change = other
    · rw [hother, if_pos rfl, if_pos rfl]
    · rw [if_neg hother, if_neg fun h => hother (Option.some.inj h).symm]

theorem Inv.join (h : Inv engine) {room : RoomId} {devices : DevicesId}
    (hold : engine.calls[id]? = some (.join room devices)) :
    Inv ({ engine with room := some room, devices := some devices, pump := none, changes :=
      engine.changes + 1 }.goes id
      (.joinTook (engine.changes + 1) devices engine.pump)) := by
  refine ⟨h.fresh_goes hold, fun hroom => (by cases hroom), ?_,
    fun change hpump => (by cases hpump), ?_, ?_, ?_, ?_⟩
  · exact fun _ => Or.inr (has_insert.mpr (Or.inl (decide_eq_true rfl)))
  · apply All.insert (h.calls.imp fun call hcall => hcall.past rfl) id
    refine ⟨?_, ?_, ?_⟩
    · intro change hcall
      cases hcall
      exact le_rfl
    · exact fun _ => ⟨Option.some_ne_none room, rfl, rfl⟩
    · intro change hcall
      have := (h.loop change hcall).1
      exact Nat.lt_succ_of_le this.le
  · apply h.apart.insert
    intro change hnew other call hcall hchange
    cases hnew
    have := (h.calls other call hcall).change _ hchange
    omega
  · intro change pump hpump haborted
    apply Or.inr
    apply has_insert.mpr
    rcases h.owned change pump hpump haborted with hheld | hhas
    · exact Or.inl (by simp [Call.holds, Call.took, hheld])
    · rcases has_split hold hhas with hold' | hothers
      · cases hold'
      · exact Or.inr hothers
  · intro conn hlt
    rcases conns_split h hold hlt with hclosed | hforward | hcarries | hothers
    · exact Or.inl hclosed
    · exact Or.inr (Or.inl hforward)
    · cases hcarries
    · exact Or.inr (Or.inr (has_insert.mpr (Or.inr hothers)))

theorem Inv.leave (h : Inv engine) (hold : engine.calls[id]? = some .leave) :
    Inv ({ engine with
      room := none, restarts := none, devices := none, pump := none, forward := none,
                        changes := engine.changes + 1 }.goes id
      (.leaving engine.forward engine.pump engine.devices)) := by
  refine ⟨h.fresh_goes hold, fun _ => ⟨rfl, rfl, rfl, rfl⟩, fun hroom => absurd rfl hroom,
    fun change hpump => (by cases hpump), ?_, ?_, ?_, ?_⟩
  · apply All.insert (h.calls.imp fun call hcall => hcall.past rfl) id
    refine ⟨fun change hcall => (by cases hcall), fun hcall => (by cases hcall), ?_⟩
    intro change hcall
    have := (h.loop change hcall).1
    exact Nat.lt_succ_of_le this.le
  · apply h.apart.insert
    exact fun change hnew => by cases hnew
  · intro change pump hpump haborted
    apply Or.inr
    apply has_insert.mpr
    rcases h.owned change pump hpump haborted with hheld | hhas
    · exact Or.inl (by simp [Call.holds, Call.took, hheld])
    · rcases has_split hold hhas with hold' | hothers
      · cases hold'
      · exact Or.inr hothers
  · intro conn hlt
    rcases conns_split h hold hlt with hclosed | hforward | hcarries | hothers
    · exact Or.inl hclosed
    · exact Or.inr (Or.inr (has_insert.mpr (Or.inl (by simp [Call.carries, Call.conn, hforward]))))
    · cases hcarries
    · exact Or.inr (Or.inr (has_insert.mpr (Or.inr hothers)))

/-- A join spawns its loops, and aborts the one it took. -/
theorem Inv.spawn (h : Inv engine) {change : ℕ} {devices : DevicesId} {previous : Option ℕ}
    (hold : engine.calls[id]? = some (.joinTook change devices previous)) (steering : List ℕ) :
    Inv ({ engine with
      pumps := (engine.abort previous).pumps.insert change ⟨devices, false⟩
      steering := steering }.goes id (.joinSpawned change)) := by
  have hplaced := h.calls id _ hold
  have hat : ∀ other, ((engine.abort previous).pumps.insert change ⟨devices, false⟩)[other]? =
      if other = change then some ⟨devices, false⟩ else (engine.abort previous).pumps[other]? :=
    fun other => insert_at _ _ _ _
  -- The last join's loop is neither the one taken, which is older, nor this one's, if another's is
  -- held.
  have hkeep : change ≠ engine.changes →
      ∀ devices', engine.pumps[engine.changes]? = some ⟨devices', false⟩ →
      ((engine.abort previous).pumps.insert change ⟨devices, false⟩)[engine.changes]? =
        some ⟨devices', false⟩ := by
    intro hne devices' hrun
    rw [hat, if_neg hne.symm, abort_at, if_neg, hrun]
    intro hprevious
    exact Nat.lt_irrefl _ (hplaced.took _ hprevious)
  refine ⟨h.fresh_goes hold, h.left, ?_, ?_, ?_, ?_, ?_, ?_⟩
  -- `joined`: another join still to store its loop is so after this step
  · intro hroom
    rcases h.joined hroom with hpump | hhas
    · exact Or.inl hpump
    · rcases has_split hold hhas with hold' | hothers
      · exact Or.inr (has_insert.mpr (Or.inl hold'))
      · exact Or.inr (has_insert.mpr (Or.inr hothers))
  -- the loop held is the last join's, so this one isn't the last
  · intro other hpump
    obtain ⟨hother, devices', hdevices, hrun⟩ := h.loop other hpump
    subst hother
    have hne : change ≠ engine.changes := by
      rintro rfl
      have hnone := (hplaced.ready rfl).2.1
      cases hpump.symm.trans hnone
    exact ⟨rfl, devices', hdevices, hkeep hne devices' hrun⟩
  -- what the calls under way have taken or made, this one's loop among it
  · apply All.replace
    · intro other call hcall
      rw [erase_at] at hcall
      split at hcall
      · cases hcall
      · next hother =>
        apply (h.calls other call hcall).with_pumps
        intro hchange
        apply hkeep
        rintro rfl
        exact hother (h.apart other id call _ _ hcall hold hchange rfl)
    · refine ⟨?_, ?_, fun other hcall => by cases hcall⟩
      · intro other hcall
        cases hcall
        exact hplaced.change change rfl
      · intro hcall
        have hchange : change = engine.changes := Option.some.inj hcall
        subst hchange
        obtain ⟨hroom, hpump, hready⟩ := hplaced.ready rfl
        exact ⟨hroom, hpump, devices, hready, (hat engine.changes).trans (if_pos rfl)⟩
  -- no two of one change
  · apply h.apart.insert
    intro other hnew another call hcall hchange
    cases hnew
    exact h.apart another id call _ _ hcall hold hchange rfl
  -- `owned`: the loop just spawned is this call's; of the rest one less, the one it took
  · intro other pump hpump haborted
    change ((engine.abort previous).pumps.insert change ⟨devices, false⟩)[other]? =
      some pump at hpump
    rw [hat] at hpump
    split at hpump
    · next hother =>
        exact Or.inr (has_insert.mpr (Or.inl (by simp [Call.holds, Call.spawned, hother])))
    · rw [abort_at] at hpump
      split at hpump
      · obtain ⟨pump, -, rfl⟩ := Option.map_eq_some_iff.mp hpump
        cases haborted
      · next hnot =>
        rcases h.owned other pump hpump haborted with hheld | hhas
        · exact Or.inl hheld
        · rcases has_split hold hhas with hold' | hothers
          · have hprevious : previous = some other :=
              of_decide_eq_true ((Bool.or_false _).symm.trans hold')
            exact absurd hprevious hnot
          · exact Or.inr (has_insert.mpr (Or.inr hothers))
  -- the connections are none of a join's
  · intro conn hlt
    rcases conns_split h hold hlt with hclosed | hforward | hcarries | hothers
    · exact Or.inl hclosed
    · exact Or.inr (Or.inl hforward)
    · cases hcarries
    · exact Or.inr (Or.inr (has_insert.mpr (Or.inr hothers)))

/-- A join that nothing came after stores its loops. -/
theorem Inv.store (h : Inv engine) (hold : engine.calls[id]? = some (.joinSpawned engine.changes)) :
    Inv ({ engine with
      pump := some engine.changes, restarts := some engine.changes }.returns id) := by
  have hplaced := h.calls id _ hold
  obtain ⟨hroom, hpump, devices, hdevices, hrun⟩ := hplaced.ready rfl
  refine ⟨h.fresh_returns, fun hnone => absurd hnone hroom, fun _ => Or.inl rfl, ?_, ?_,
    h.apart.erase id, ?_, ?_⟩
  · intro change hchange
    cases hchange
    exact ⟨rfl, devices, hdevices, hrun⟩
  · intro other call hcall
    have hcall' := hcall
    change (engine.calls.erase id)[other]? = some call at hcall'
    rw [erase_at] at hcall'
    split at hcall'
    · cases hcall'
    · next hother =>
      have hothers := h.calls other call hcall'
      refine ⟨hothers.change, fun hchange => ?_, hothers.took⟩
      exact absurd (h.apart other id call _ _ hcall' hold hchange rfl) hother
  · intro change pump hpump' haborted
    rcases h.owned change pump hpump' haborted with hheld | hhas
    · rw [hpump] at hheld
      cases hheld
    · rcases has_split hold hhas with hold' | hothers
      · have hchange :
            engine.changes = change := by simpa [Call.holds, Call.took, Call.spawned] using hold'
        exact Or.inl (congrArg some hchange)
      · exact Or.inr hothers
  · intro conn hlt
    rcases conns_split h hold hlt with hclosed | hforward | hcarries | hothers
    · exact Or.inl hclosed
    · exact Or.inr (Or.inl hforward)
    · cases hcarries
    · exact Or.inr (Or.inr hothers)

/-- A leave aborts the loop it took. -/
theorem Inv.abort (h : Inv engine) {pump : ℕ} {devices : Option DevicesId}
    (hold : engine.calls[id]? = some (.leaving none (some pump) devices)) :
    Inv ((engine.abort (some pump)).goes id (.awaiting pump devices)) := by
  have hplaced := h.calls id _ hold
  -- The loop taken is older than the last join's, so that one runs on.
  have hkeep : ∀ devices', engine.pumps[engine.changes]? = some ⟨devices', false⟩ →
      (engine.abort (some pump)).pumps[engine.changes]? = some ⟨devices', false⟩ := by
    intro devices' hrun
    rw [abort_at, if_neg, hrun]
    intro hsame
    exact Nat.lt_irrefl _ (hplaced.took _ hsame)
  refine ⟨h.fresh_goes hold, h.left, ?_, ?_, ?_, ?_, ?_, ?_⟩
  -- `joined` and `loop`
  · intro hroom
    rcases h.joined hroom with hpump | hhas
    · exact Or.inl hpump
    · rcases has_split hold hhas with hold' | hothers
      · cases of_decide_eq_true hold'
      · exact Or.inr (has_insert.mpr (Or.inr hothers))
  · intro change hpump
    obtain ⟨hchange, devices', hdevices, hrun⟩ := h.loop change hpump
    subst hchange
    exact ⟨rfl, devices', hdevices, hkeep devices' hrun⟩
  -- `calls` and `apart`
  · apply All.insert (h.calls.imp fun call hcall =>
      @Placed.with_pumps _ _ hcall _ engine.steering _ fun _ => hkeep) id
    exact ⟨fun change hcall => (by cases hcall), fun hcall => (by cases hcall),
      fun change hcall => (by cases hcall)⟩
  · apply h.apart.insert
    exact fun change hnew => by cases hnew
  -- `owned`: a loop that is not aborted is not the one this call took.
  · intro change other hother haborted
    change (engine.abort (some pump)).pumps[change]? = some other at hother
    rw [abort_at] at hother
    split at hother
    · obtain ⟨other, -, rfl⟩ := Option.map_eq_some_iff.mp hother
      cases haborted
    · next hnot =>
      rcases h.owned change other hother haborted with hheld | hhas
      · exact Or.inl hheld
      · rcases has_split hold hhas with hold' | hothers
        · have hsame : pump = change := by simpa [Call.holds, Call.took, Call.spawned] using hold'
          exact absurd (congrArg some hsame) hnot
        · exact Or.inr (has_insert.mpr (Or.inr hothers))
  · intro conn hlt
    rcases conns_split h hold hlt with hclosed | hforward | hcarries | hothers
    · exact Or.inl hclosed
    · exact Or.inr (Or.inl hforward)
    · cases hcarries
    · exact Or.inr (Or.inr (has_insert.mpr (Or.inr hothers)))

theorem plain_of_starts {call : Call} (h : call.starts = true) :
    call.change = none ∧ call.took = none := by
  cases call <;> first | exact ⟨rfl, rfl⟩ | simp [Call.starts] at h

theorem Inv.starts (h : Inv engine) {call : Call} (hstarts : call.starts = true) :
    Inv { engine.goes engine.called call with called := engine.called + 1 } := by
  obtain ⟨hchange, htook⟩ := plain_of_starts hstarts
  have hfresh := h.fresh engine.called le_rfl
  refine ⟨?_, h.left, ?_, h.loop, ?_, ?_, ?_, ?_⟩
  · intro other hother
    have hother : engine.called + 1 ≤ other := hother
    exact (insert_at _ _ _ _).trans ((if_neg (by omega)).trans (h.fresh other (by omega)))
  · exact fun hroom => (h.joined hroom).imp id fun hhas => has_begin hfresh hhas
  · refine All.insert
      (h.calls.imp fun other hother => ⟨hother.change, hother.ready, hother.took⟩) engine.called
      ⟨fun change hcall => ?_, fun hcall => ?_, fun change hcall => ?_⟩
    · cases hchange.symm.trans hcall
    · cases hchange.symm.trans hcall
    · cases htook.symm.trans hcall
  · apply h.apart.insert
    exact fun change hcall => by cases hchange.symm.trans hcall
  · exact fun change pump hpump haborted => (h.owned change pump hpump haborted).imp id fun hhas =>
      has_begin hfresh hhas
  · exact fun conn hlt => (h.conns conn hlt).imp id fun hheld => hheld.imp id fun hhas =>
      has_begin hfresh hhas

/-- A loop ends that was aborted, or is not the last join's. -/
theorem Inv.pump_ends (h : Inv engine) {change : ℕ} (hends : Allowed engine (.pumpEnds change)) :
    Inv { engine with pumps := engine.pumps.erase change } := by
  have hkeep : ∀ (devices : DevicesId), engine.pumps[engine.changes]? = some ⟨devices, false⟩ →
      (engine.pumps.erase change)[engine.changes]? = some ⟨devices, false⟩ := by
    intro devices hrun
    rw [erase_at, if_neg, hrun]
    rintro rfl
    rcases hends with hother | haborted
    · exact hother rfl
    · rw [hrun] at haborted
      cases haborted
  refine ⟨h.fresh, h.left, h.joined, ?_, ?_, h.apart, ?_, h.conns⟩
  · intro other hpump
    obtain ⟨hother, devices, hdevices, hrun⟩ := h.loop other hpump
    subst hother
    exact ⟨rfl, devices, hdevices, hkeep devices hrun⟩
  · exact h.calls.imp fun call hcall => hcall.with_pumps fun _ => hkeep
  · intro other pump hpump haborted
    change (engine.pumps.erase change)[other]? = some pump at hpump
    rw [erase_at] at hpump
    split at hpump
    · cases hpump
    · exact h.owned other pump hpump haborted

/-- A call that holds no connection and no loop goes on to one that holds none either. -/
theorem Inv.plain_goes (h : Inv engine) (hold : engine.calls[id]? = some old)
    (hchange : old.change = none)
    (hnew : new.change = none) (htook : new.took = old.took) (hconn : old.conn = none) :
    Inv (engine.goes id new) := by
  refine h.conn_goes hold engine.forward engine.made engine.closed hchange hnew htook
    (fun hroom => (h.left hroom).2.2.2)
    fun conn hlt => ?_
  rcases conns_split h hold hlt with hclosed | hforward | hcarries | hothers
  · exact Or.inl hclosed
  · exact Or.inr (Or.inl hforward)
  · cases hconn.symm.trans hcarries
  · exact Or.inr (Or.inr (Or.inr hothers))

theorem Inv.plain_returns (h : Inv engine) (hold : engine.calls[id]? = some old)
    (controls : VoiceControls)
    (hchange : old.change = none) (htook : old.took = none) (hconn : old.conn = none) :
    Inv ({ engine with controls := controls }.returns id) := by
  apply h.conn_returns hold engine.closed controls hchange htook
  intro conn hlt
  rcases conns_split h hold hlt with hclosed | hforward | hcarries | hothers
  · exact Or.inl hclosed
  · exact Or.inr (Or.inl hforward)
  · cases hconn.symm.trans hcarries
  · exact Or.inr (Or.inr hothers)

/-- The connection held is taken by a call that closes it. -/
theorem Inv.takes (h : Inv engine) (hold : engine.calls[id]? = some old) {conn : ConnId}
    (reopens : Bool)
    (hforward : engine.forward = some conn) (hchange : old.change = none) (htook : old.took = none)
    (hclosing : old.conn = none) :
    Inv ({ engine with forward := none }.goes id (.closing conn reopens)) := by
  refine h.conn_goes hold none engine.made engine.closed hchange rfl htook.symm (fun _ => rfl)
    fun other hlt => ?_
  rcases conns_split h hold hlt with hclosed | hheld | hcarries | hothers
  · exact Or.inl hclosed
  · exact Or.inr (Or.inr (Or.inl (hforward.symm.trans hheld)))
  · cases hclosing.symm.trans hcarries
  · exact Or.inr (Or.inr (Or.inr hothers))

/-- A connection that a call holds is closed. -/
theorem conns_close (h : Inv engine) (hold : engine.calls[id]? = some old) {conn : ConnId}
    (hconn : old.conn = some conn)
    {other : ConnId} (hlt : other < engine.made) :
    other ∈ conn :: engine.closed ∨ engine.forward = some other ∨
      Others engine.calls id (Call.carries other) := by
  rcases conns_split h hold hlt with hclosed | hforward | hcarries | hothers
  · exact Or.inl (List.mem_cons_of_mem _ hclosed)
  · exact Or.inr (Or.inl hforward)
  · cases hconn.symm.trans hcarries
    exact Or.inl List.mem_cons_self
  · exact Or.inr (Or.inr hothers)

theorem Inv.closes_goes (h : Inv engine) (hold : engine.calls[id]? = some old) {conn : ConnId}
    (hconn : old.conn = some conn) (hchange : old.change = none) (hnew : new.change = none)
    (htook : new.took = old.took) :
    Inv ((engine.close conn).goes id new) := by
  refine h.conn_goes hold engine.forward engine.made (conn :: engine.closed) hchange hnew htook
    (fun hroom => (h.left hroom).2.2.2) fun other hlt => ?_
  rcases conns_close h hold hconn hlt with hclosed | hforward | hothers
  · exact Or.inl hclosed
  · exact Or.inr (Or.inl hforward)
  · exact Or.inr (Or.inr (Or.inr hothers))

theorem Inv.closes_returns (h : Inv engine) (hold : engine.calls[id]? = some old) {conn : ConnId}
    (hconn : old.conn = some conn) (hchange : old.change = none) (htook : old.took = none) :
    Inv ((engine.close conn).returns id) :=
  h.conn_returns hold (conn :: engine.closed) engine.controls hchange htook fun _ hlt =>
    conns_close h hold hconn hlt

/-- A connection is made, and the call that opened it holds it. -/
theorem Inv.makes (h : Inv engine) (hold : engine.calls[id]? = some .opening) :
    Inv ({ engine with made := engine.made + 1 }.goes id (.made engine.made)) := by
  refine h.conn_goes hold engine.forward (engine.made + 1) engine.closed rfl rfl rfl
    (fun hroom => (h.left hroom).2.2.2)
    fun conn hlt => ?_
  rcases Nat.lt_succ_iff_lt_or_eq.mp hlt with hlt | rfl
  · rcases conns_split h hold hlt with hclosed | hforward | hcarries | hothers
    · exact Or.inl hclosed
    · exact Or.inr (Or.inl hforward)
    · cases hcarries
    · exact Or.inr (Or.inr (Or.inr hothers))
  · exact Or.inr (Or.inr (Or.inl rfl))

/-- And stores it, in a call that holds no other. -/
theorem Inv.stores (h : Inv engine) {conn : ConnId} (hold : engine.calls[id]? = some (.made conn))
    (hroom : engine.room ≠ none) (hnone : engine.forward = none) :
    Inv ({ engine with forward := some conn }.goes id .answering) := by
  refine h.conn_goes hold (some conn) engine.made engine.closed rfl rfl rfl
    (fun hleft => absurd hleft hroom)
    fun other hlt => ?_
  rcases conns_split h hold hlt with hclosed | hforward | hcarries | hothers
  · exact Or.inl hclosed
  · cases hnone.symm.trans hforward
  · exact Or.inr (Or.inl hcarries)
  · exact Or.inr (Or.inr (Or.inr hothers))

/-- What `Allowed` asks, of the call that goes on. -/
def Call.Allowed (engine : Engine) (good : Bool) : Call → Prop
  | .joinSpawned change => change = engine.changes
  | .made _ => good = true ∧ engine.room ≠ none ∧ engine.forward = none
  | _ => True

theorem allowed_of_at {good : Bool} (hold : engine.calls[id]? = some old)
    (h : Allowed engine (.goesOn id good)) :
    old.Allowed engine good := by
  simp only [Allowed, hold] at h
  cases old <;> exact h

/-- Case by case of where the call has got to. -/
theorem Inv.goes_on
    (h : Inv engine) {good : Bool} {next : Engine} (hold : engine.calls[id]? = some old)
    (hallowed : old.Allowed engine good) (hs : engine.goOn id good old = some next) : Inv next := by
  cases old with
  | join room devices =>
    cases hs
    exact h.join hold
  -- A step of a join, of a leave, of an offer or of a restart, as far as it has got.
  | joinTook change devices previous =>
    obtain rfl := Option.some.inj hs
    have := h.spawn hold (change :: engine.steering)
    rw [abort_eq]
    exact this
  | joinSpawned change =>
    obtain rfl := Option.some.inj hs
    have hchange : change = engine.changes := hallowed
    subst hchange
    exact h.store hold
  | leave =>
    cases hs
    exact h.leave hold
  | leaving forward pump devices =>
    cases forward with
    | some conn =>
      cases hs
      exact h.closes_goes hold rfl rfl rfl rfl
    | none =>
      cases pump with
      | some pump =>
        cases hs
        exact h.abort hold
      | none =>
        cases hs
        exact h.plain_returns hold engine.controls rfl rfl rfl
  | awaiting pump devices =>
    obtain ⟨-, hs⟩ := Option.ite_none_right_eq_some.mp hs
    cases hs
    exact h.plain_returns hold engine.controls rfl rfl rfl
  | offer =>
    obtain rfl := Option.some.inj hs
    split
    · exact h.plain_returns hold engine.controls rfl rfl rfl
    · exact h.plain_goes hold rfl rfl rfl rfl
  | offered conn =>
    cases conn with
    | none =>
      cases hs
      exact h.plain_goes hold rfl rfl rfl rfl
    | some conn =>
      obtain rfl := Option.some.inj hs
      split
      · exact h.plain_goes hold rfl rfl rfl rfl
      · exact h.plain_goes hold rfl rfl rfl rfl
  | replacing conn =>
    obtain rfl := Option.some.inj hs
    split
    · next hforward => exact h.takes hold true hforward rfl rfl rfl
    · exact h.plain_goes hold rfl rfl rfl rfl
  | closing conn reopens =>
    obtain rfl := Option.some.inj hs
    split
    · exact h.closes_goes hold rfl rfl rfl rfl
    · exact h.closes_returns hold rfl rfl rfl
  | opening =>
    obtain rfl := Option.some.inj hs
    split
    · exact h.makes hold
    · exact h.plain_returns hold engine.controls rfl rfl rfl
  | made conn =>
    obtain ⟨hgood, hroom, hnone⟩ := hallowed
    obtain rfl := Option.some.inj hs
    rw [if_pos hgood]
    exact h.stores hold hroom hnone
  | answering =>
    cases hs
    exact h.plain_returns hold engine.controls rfl rfl rfl
  | restart =>
    obtain rfl := Option.some.inj hs
    split
    · next hforward => exact h.takes hold false hforward rfl rfl rfl
    · exact h.plain_returns hold engine.controls rfl rfl rfl
  | setControls controls =>
    cases hs
    exact h.plain_returns hold controls.normalized rfl rfl rfl

theorem Inv.step (h : Inv engine) {event : Event} {next : Engine} (hallowed : Allowed engine event)
    (hs : engine.step event = some next) : Inv next := by
  cases event with
  | calls call =>
    obtain ⟨hstarts, hs⟩ := Option.ite_none_right_eq_some.mp hs
    cases hs
    exact h.starts hstarts
  | goesOn id good =>
    obtain ⟨call, hold, hs⟩ := Option.bind_eq_some_iff.mp hs
    exact h.goes_on hold (allowed_of_at hold hallowed) hs
  | pumpEnds change =>
    obtain ⟨-, hs⟩ := Option.ite_none_right_eq_some.mp hs
    cases hs
    exact h.pump_ends hallowed
  | steerEnds change =>
    simp only [Engine.step] at hs
    split at hs
    · cases hs
    · cases hs
      exact ⟨h.fresh, h.left, h.joined, h.loop,
        h.calls.imp fun call hcall => ⟨hcall.change, hcall.ready, hcall.took⟩,
        h.apart, h.owned, h.conns⟩

theorem inv_new : Inv .new := by
  refine ⟨fun id _ => ?_, fun _ => ⟨rfl, rfl, rfl, rfl⟩, fun hroom => absurd rfl hroom,
    fun _ hpump => ?_, all_empty, ?_, fun change pump hpump _ => ?_,
    fun conn hlt => absurd hlt (Nat.not_lt_zero conn)⟩
  · simp [Engine.new]
  · cases hpump
  · intro i j call other change hi
    simp [Engine.new] at hi
  · simp [Engine.new] at hpump

end Steps

/-- With nothing in flight, what is held is all there is. -/
theorem Inv.settled {engine : Engine} (h : Inv engine) (hquiet : Quiet engine) :
    Settled engine := by
  -- With no calls, loops and connections are only the engine's own.
  have hno : ∀ p, ¬ Has engine.calls p := by
    rintro p ⟨call, hmem, -⟩
    rw [hquiet.calls] at hmem
    cases hmem
  have hheld : ∀ change pump, engine.pumps[change]? = some pump → engine.pump = some change := by
    intro change pump hpump
    have haborted := hquiet.pumps pump ((mem_vals _ _).mpr ⟨change, hpump⟩)
    exact (h.owned change pump hpump haborted).resolve_right (hno _)
  refine ⟨fun hroom => ?_, fun hroom => ?_, fun conn hlt => ?_⟩
  -- Out of voice it holds nothing.
  · obtain ⟨hdevices, hpump, hrestarts, hforward⟩ := h.left hroom
    refine ⟨hdevices, hpump, hrestarts, hforward, ?_, ?_⟩
    · apply List.eq_nil_iff_forall_not_mem.mpr
      intro pump hmem
      obtain ⟨change, hat⟩ := (mem_vals _ _).mp hmem
      cases hpump.symm.trans (hheld change pump hat)
    · apply List.eq_nil_iff_forall_not_mem.mpr
      intro change hmem
      cases hrestarts.symm.trans (hquiet.steering change hmem)
  -- In voice the last join's loop is the one that is held, and there is no other.
  · have hpump := (h.joined hroom).resolve_right (hno _)
    obtain ⟨-, devices, hdevices, hrun⟩ := h.loop _ hpump
    refine ⟨engine.changes, devices, hdevices, hpump, ?_⟩
    apply Std.ExtTreeMap.ext_getElem?
    intro change
    rw [insert_at]
    split
    · next hchange => rw [hchange, hrun]
    · next hchange =>
      have hnone : engine.pumps[change]? = none := by
        apply Option.eq_none_iff_forall_ne_some.mpr
        intro pump hat
        exact hchange (Option.some.inj ((hheld change pump hat).symm.trans hpump))
      rw [hnone]
      simp
  · rcases h.conns conn hlt with hclosed | hforward | hhas
    · exact Or.inl hclosed
    · apply Or.inr
      refine ⟨fun hroom => ?_, hforward⟩
      cases (h.left hroom).2.2.2.symm.trans hforward
    · exact absurd hhas (hno _)

/-- Leaving leaves nothing, and a join one loop, in every run where nothing falls in a gap. -/
theorem leaves_nothing (events : List Event) (engine : Engine)
    (hmeets : machine.Meets Allowed events)
    (hrun : machine.run events = some engine) (hquiet : Quiet engine) : Settled engine := by
  have hinv : Inv engine :=
    machine.invariant_of_meets inv_new (fun _ _ _ h hallowed hs => h.step hallowed hs) hmeets hrun
  exact hinv.settled hquiet

instance (engine : Engine) (event : Event) : Decidable (Allowed engine event) := by
  unfold Allowed
  split
  · split <;> infer_instance
  · infer_instance
  · infer_instance

/-- Somebody joins, an offer is answered, and they leave. -/
def joined : List Event := [.calls (.join 0 0), .goesOn 0 true, .goesOn 0 true, .goesOn 0 true,
  .calls .offer, .goesOn 1 true, .goesOn 1 true, .goesOn 1 true, .goesOn 1 true, .goesOn 1 true,
  .calls .leave, .goesOn 2 true, .goesOn 2 true, .goesOn 2 true, .pumpEnds 1, .goesOn 2 true,
  .steerEnds 1]

theorem leaves_nothing_joined :
    ∃ engine, machine.run joined = some engine ∧ engine.made = 1 ∧ Settled engine := by
  obtain ⟨engine, hr⟩ :=
    Option.isSome_iff_exists.mp (show (machine.run joined).isSome = true by decide +kernel)
  have hmeets : machine.Meets Allowed joined := by decide +kernel
  have hcalls : (machine.run joined).any (fun engine => engine.made = 1 ∧ vals engine.calls = [] ∧
      vals engine.pumps = [] ∧ engine.steering = []) = true := by decide +kernel
  rw [hr] at hcalls
  obtain ⟨hmade, hnone, hpumps, hsteering⟩ := of_decide_eq_true hcalls
  refine ⟨engine, hr, hmade, leaves_nothing joined engine hmeets hr ⟨hnone, ?_, ?_⟩⟩
  · rw [hpumps]
    exact nofun
  · rw [hsteering]
    exact nofun

/-- A leave falls between a join's two locks, or between an offer's look at the room and the
connection it stores; a connection is made and its offer fails; two offers open one each; the
microphone goes away. -/
def between : List (List Event) :=
  [[.calls (.join 0 0), .goesOn 0 true, .calls .leave, .goesOn 1 true, .goesOn 1 true,
    .goesOn 0 true, .goesOn 0 true], [.calls (.join 0 0), .goesOn 0 true, .goesOn 0 true,
    .goesOn 0 true, .calls .offer, .goesOn 1 true,
      .calls .leave, .goesOn 2 true, .goesOn 2 true, .pumpEnds 1, .goesOn 2 true, .steerEnds 1,
      .goesOn 1 true, .goesOn 1 true, .goesOn 1 true, .goesOn 1 true],
    [.calls (.join 0 0), .goesOn 0 true, .goesOn 0 true, .goesOn 0 true,
      .calls .offer, .goesOn 1 true, .goesOn 1 true, .goesOn 1 true, .goesOn 1 false],
    [.calls (.join 0 0), .goesOn 0 true, .goesOn 0 true, .goesOn 0 true, .calls .offer,
      .calls .offer, .goesOn 1 true, .goesOn 2 true, .goesOn 1 true, .goesOn 2 true, .goesOn 1 true,
      .goesOn 2 true, .goesOn 1 true, .goesOn 2 true, .goesOn 1 true, .goesOn 2 true],
    [.calls (.join 0 0), .goesOn 0 true, .goesOn 0 true, .goesOn 0 true, .pumpEnds 1]]

instance (engine : Engine) : Decidable (Quiet engine) :=
  decidable_of_iff (vals engine.calls = [] ∧ (∀ pump ∈ vals engine.pumps, pump.aborted = false) ∧
      ∀ change ∈ engine.steering, engine.restarts = some change)
    ⟨fun h => ⟨h.1, h.2.1, h.2.2⟩, fun h => ⟨h.calls, h.pumps, h.steering⟩⟩

/-- What is left over, or never closed, in each of them. -/
theorem leaves_something : ¬ ∃ events ∈ between,
    ∀ engine, machine.run events = some engine → Quiet engine → Settled engine := by
  have hall : ∀ events ∈ between, (machine.run events).any (fun engine => Quiet engine ∧
      ¬ ((engine.room = none → engine.pump = none ∧ engine.forward = none) ∧
        (engine.room ≠ none → vals engine.pumps ≠ []) ∧ ∀ conn < engine.made, conn ∈ engine.closed ∨
          (engine.room ≠ none ∧ engine.forward = some conn))) = true := by
    decide +kernel
  intro ⟨events, hmem, hclaim⟩
  obtain ⟨engine, hr, hleft⟩ := Option.any_eq_true _ _ |>.mp (hall events hmem)
  obtain ⟨hquiet, hnot⟩ := of_decide_eq_true hleft
  have hsettled := hclaim engine hr hquiet
  apply hnot
  refine ⟨fun hroom => ?_, fun hroom hnil => ?_, hsettled.closed⟩
  · have hnone := hsettled.left hroom
    exact ⟨hnone.2.1, hnone.2.2.2.1⟩
  · obtain ⟨change, devices, -, -, hpumps⟩ := hsettled.joined hroom
    have hmem : (⟨devices, false⟩ : Pump) ∈ vals engine.pumps :=
      (mem_vals _ _).mpr ⟨change, by rw [hpumps, insert_at, if_pos rfl]⟩
    rw [hnil] at hmem
    cases hmem

end Linger.VoiceEngine
