import Linger.GatewayEffect

/-! No presence is lost between its change and its telling, whichever tasks get
in between. -/
namespace Linger
open FiniteMap StepMachine

namespace Gateway

/-- What a frame tells everybody about one person's presence. -/
def saidOf (u : UserId) (f : Fanout) : Option PresenceEntry :=
  match f.event with
  | .presenceUpdate entry => if entry.userId = u then some entry else none
  | _ => none

def presenceSaid (g : Gateway) (u : UserId) : List PresenceEntry := g.bus.filterMap (saidOf u)

/-- What everybody was last told, who takes a person nothing was said of for offline. -/
def lastSaid (g : Gateway) (u : UserId) : PresenceEntry :=
  ((g.presenceSaid u).getLast?).getD (offlineEntry u)

def current (g : Gateway) (u : UserId) : PresenceEntry := (g.presence[u]?).getD (offlineEntry u)

/-- Somebody's own entry is theirs. -/
def OwnEntries (g : Gateway) : Prop :=
  ∀ (u : UserId) (e : PresenceEntry), g.presence[u]? = some e → e.userId = u

theorem presenceSaid_publish (g : Gateway) (u : UserId) (e : ServerEvent) :
    (g.publish e).presenceSaid u =
      g.presenceSaid u ++ (saidOf u (Fanout.new e none none (roomOf e))).toList := by
  unfold presenceSaid publish
  rw [List.filterMap_append]
  congr 1

theorem presenceSaid_tellLeave (g : Gateway) (u v : UserId) (before : Option RoomId) :
    (g.tellLeave u before).presenceSaid v = g.presenceSaid v := by
  unfold tellLeave
  split
  · rw [presenceSaid_publish, presenceSaid_publish]
    simp [saidOf, Fanout.new]
  · rfl

theorem presenceSaid_tellEnter (g : Gateway) (u v : UserId) (now : Option RoomId)
    (sound : Option String) :
    (g.tellEnter u now sound).presenceSaid v = g.presenceSaid v := by
  unfold tellEnter
  split
  · rw [presenceSaid_publish, presenceSaid_publish]
    simp [saidOf, Fanout.new]
  · rfl

theorem presenceSaid_tellPresence {g : Gateway} {u : UserId} {entry : PresenceEntry}
    (h : g.presence[u]? = some entry) (huser : entry.userId = u) (v : UserId) :
    (g.tellPresence u).presenceSaid v = g.presenceSaid v ++ if v = u then [entry] else [] := by
  unfold tellPresence
  rw [h]
  dsimp only
  rw [presenceSaid_publish]
  congr 1
  by_cases hv : v = u
  · simp [saidOf, Fanout.new, huser, hv]
  · simp [saidOf, Fanout.new, huser, hv, Ne.symm hv]

/-- A told move ends with the presence that is current as it is told. -/
theorem presenceSaid_tellFocus {g : Gateway} {u : UserId} {entry : PresenceEntry}
    (h : g.presence[u]? = some entry) (huser : entry.userId = u) (sound : Option String)
    (v : UserId) : (g.tellFocus u sound).1.presenceSaid v =
      g.presenceSaid v ++ if v = u then [entry] else [] := by
  rw [tellFocus_online h]
  dsimp only
  split
  · have hp := ((onlyTells_tellLeave (g.rememberFocus u (g.toldRoom u)) u (g.toldRoom u)).trans
      (onlyTells_tellEnter _ u entry.roomId sound)).presence
    rw [presenceSaid_tellPresence (g := Gateway.rememberFocus _ u entry.roomId)
      ((congrArg (fun m : FMap UserId PresenceEntry => m[u]?) hp).trans h) huser]
    congr 1
    exact (presenceSaid_tellEnter _ u v _ sound).trans (presenceSaid_tellLeave _ u v _)
  · exact presenceSaid_tellPresence (g := g.rememberFocus u (g.toldRoom u)) h huser v

theorem presenceSaid_tellOffline (g : Gateway) (u v : UserId) :
    (g.tellOffline u).presenceSaid v =
      g.presenceSaid v ++ if v = u then [offlineEntry u] else [] := by
  unfold tellOffline
  rw [presenceSaid_publish]
  congr 1
  by_cases hv : v = u
  · simp [saidOf, Fanout.new, offlineEntry, hv]
  · simp [saidOf, Fanout.new, offlineEntry, hv, Ne.symm hv]

variable {free : Prop} {u : UserId} {old next : Task} {g g' : Gateway}

/-- The four ways a step can leave what everybody was last told of its person. -/
inductive Leaves (u : UserId) (old next : Task) (g g' : Gateway) : Prop
  | said (hsaid : g'.presenceSaid u = g.presenceSaid u ++ [g'.current u])
  | changed (hobliged : next.obliged = some u) (hsome : g'.presence[u]? ≠ none)
      (hsaid : g'.presenceSaid u = g.presenceSaid u)
  | removed (hnext : next = .goneOffline u) (hsaid : g'.presenceSaid u = g.presenceSaid u)
  | quiet (hsaid : g'.presenceSaid u = g.presenceSaid u) (hpresence : g'.presence = g.presence)
      (hold : old ≠ .goneOffline u)
      (hobliged : old.obliged = some u → next.obliged = some u ∨ u ∈ g'.presenceHeld ∨
        u ∈ g'.focusHeld ∨ g.presence[u]? = none)

theorem current_eq {entry : PresenceEntry} (h : g.presence[u]? = some entry) :
    g.current u = entry := by
  rw [current, h, Option.getD_some]

theorem Effect.leaves (h : Effect free u old next g g') (hown : OwnEntries g)
    (hgone : old = .goneOffline u → g.presence[u]? = none) : Leaves u old next g g' := by
  cases h with
  | kept hbus hpresence htold hobliged hold hnext =>
    exact .quiet (congrArg (List.filterMap (saidOf u)) hbus) hpresence hold hobliged
  | tells h hold hnext =>
    cases hp : g.presence[u]? with
    | none =>
      have hg : g' = g := by rw [h, tellPresence, hp]
      rw [hg]
      exact .quiet rfl rfl hold (fun _ => Or.inr (Or.inr (Or.inr hp)))
    | some entry =>
      have hcur : g'.current u = entry :=
        current_eq (by rw [h, (onlyTells_tellPresence g u).presence, hp])
      have hs := presenceSaid_tellPresence hp (hown u entry hp) u
      rw [if_pos rfl, ← h, ← hcur] at hs
      exact .said hs
  | moves entry sound he h hold hnext =>
    have hcur : g'.current u = entry :=
      current_eq (by rw [h, (onlyTells_tellFocus g u sound).presence, he])
    have hs := presenceSaid_tellFocus he (hown u entry he) sound u
    rw [if_pos rfl, ← h, ← hcur] at hs
    exact .said hs
  | forgets h hstands =>
    have hold : old ≠ .goneOffline u := by
      rcases hstands with ⟨rfl, -⟩ | ⟨rfl, -⟩ | ⟨rfl, -⟩ <;> simp
    refine .quiet (by rw [h]; rfl) (by rw [h]; rfl) hold (fun ho => Or.inl ?_)
    rcases hstands with ⟨rfl, -⟩ | ⟨-, rfl⟩ | ⟨-, rfl⟩
    · cases ho
    · rfl
    · rfl
  | changes entry huser hbus hpresence hfocus hfree hobliged hold hnext =>
    refine .changed hobliged ?_ (congrArg (List.filterMap (saidOf u)) hbus)
    rw [hpresence, insert_at, if_pos rfl]
    simp
  | removes h hold hnext => exact .removed hnext (by rw [h]; rfl)
  | offline h hold hnext =>
    have hcur : g'.current u = offlineEntry u := by
      rw [h, current, tellOffline, publish_presence, hgone hold, Option.getD_none]
    have hs := presenceSaid_tellOffline g u u
    rw [if_pos rfl, ← h, ← hcur] at hs
    exact .said hs

/-- Nobody else's presence, nor what was said of it, is touched. -/
theorem Effect.others (h : Effect free u old next g g') (hown : OwnEntries g) {v : UserId}
    (hv : v ≠ u) : g'.presenceSaid v = g.presenceSaid v ∧ g'.presence[v]? = g.presence[v]? := by
  cases h with
  | kept hbus hpresence htold hobliged hold hnext =>
    exact ⟨congrArg (List.filterMap (saidOf v)) hbus, by rw [hpresence]⟩
  | tells h hold hnext =>
    rw [h, (onlyTells_tellPresence g u).presence]
    refine ⟨?_, rfl⟩
    cases hp : g.presence[u]? with
    | none => rw [tellPresence, hp]
    | some entry =>
      rw [presenceSaid_tellPresence hp (hown u entry hp), if_neg hv, List.append_nil]
  | moves entry sound he h hold hnext =>
    rw [h, (onlyTells_tellFocus g u sound).presence,
      presenceSaid_tellFocus he (hown u entry he), if_neg hv, List.append_nil]
    exact ⟨rfl, rfl⟩
  | forgets h hstands =>
    rw [h]
    exact ⟨rfl, rfl⟩
  | changes entry huser hbus hpresence hfocus hfree hobliged hold hnext =>
    refine ⟨congrArg (List.filterMap (saidOf v)) hbus, ?_⟩
    rw [hpresence, insert_at, if_neg hv]
  | removes h hold hnext =>
    rw [h]
    exact ⟨rfl, (erase_at g.presence u v).trans (if_neg hv)⟩
  | offline h hold hnext =>
    rw [h, presenceSaid_tellOffline, if_neg hv, List.append_nil]
    exact ⟨rfl, rfl⟩

theorem Effect.ownEntries (h : Effect free u old next g g') (hown : OwnEntries g) :
    OwnEntries g' := by
  intro v e he
  by_cases hv : v = u
  · subst hv
    cases h with
    | kept hbus hpresence htold hobliged hold hnext => exact hown v e (hpresence ▸ he)
    | tells h hold hnext =>
      rw [h, (onlyTells_tellPresence g v).presence] at he
      exact hown v e he
    | moves entry sound he' h hold hnext =>
      rw [h, (onlyTells_tellFocus g v sound).presence] at he
      exact hown v e he
    | forgets h hstands =>
      rw [h] at he
      exact hown v e he
    | changes entry huser hbus hpresence hfocus hfree hobliged hold hnext =>
      rw [hpresence, insert_at, if_pos rfl] at he
      exact (Option.some.inj he) ▸ huser
    | removes h hold hnext =>
      rw [h, forgetPresence, erase_at, if_pos rfl] at he
      cases he
    | offline h hold hnext =>
      rw [h] at he
      exact hown v e he
  · rw [(h.others hown hv).2] at he
    exact hown v e he

/-- Somebody who is offline stays so while another task than this one holds their entry. -/
theorem Effect.stays_offline (h : Effect free u old next g g') (hnone : g.presence[u]? = none)
    (hheld : old.holds ≠ some u) (hfree : ¬ free) : g'.presence[u]? = none := by
  cases h with
  | kept hbus hpresence htold hobliged hold hnext => rw [hpresence, hnone]
  | tells h hold hnext => rw [h, (onlyTells_tellPresence g u).presence, hnone]
  | moves entry sound he h hold hnext => rw [h, (onlyTells_tellFocus g u sound).presence, hnone]
  | forgets h hstands =>
    rw [h]
    exact hnone
  | changes entry huser hbus hpresence hfocus hf hobliged hold hnext =>
    rcases hf with hf | hf
    · exact absurd hf hheld
    · exact absurd hf hfree
  | removes h hold hnext =>
    rw [h]
    exact (erase_at g.presence u u).trans (if_pos rfl)
  | offline h hold hnext =>
    rw [h]
    exact hnone

/-- A task about to tell somebody offline has just taken their entry away. -/
theorem Effect.gone (h : Effect free u old next g g') (hn : next = .goneOffline u) :
    g'.presence[u]? = none := by
  cases h with
  | kept hbus hpresence htold hobliged hold hnext => exact absurd hn hnext
  | tells h hold hnext => exact absurd (hnext.symm.trans hn) (by simp)
  | moves entry sound he h hold hnext => rcases hnext with hnext | hnext <;> simp [hnext] at hn
  | forgets h hstands =>
    rcases hstands with ⟨-, hnext⟩ | ⟨-, hnext⟩ | ⟨-, hnext⟩ <;> simp [hnext] at hn
  | changes entry huser hbus hpresence hfocus hf hobliged hold hnext => exact absurd hn hnext
  | removes h hold hnext =>
    rw [h]
    exact (erase_at g.presence u u).trans (if_pos rfl)
  | offline h hold hnext => exact absurd (hnext.symm.trans hn) (by simp)

theorem lastSaid_congr {v : UserId} (h : g'.presenceSaid v = g.presenceSaid v) :
    g'.lastSaid v = g.lastSaid v := by
  rw [lastSaid, lastSaid, h]

theorem current_congr {v : UserId} (h : g'.presence[v]? = g.presence[v]?) :
    g'.current v = g.current v := by
  rw [current, current, h]

theorem lastSaid_snoc {v : UserId} {entry : PresenceEntry}
    (h : g'.presenceSaid v = g.presenceSaid v ++ [entry]) : g'.lastSaid v = entry := by
  rw [lastSaid, h, List.getLast?_concat, Option.getD_some]

theorem current_none {v : UserId} (h : g.presence[v]? = none) : g.current v = offlineEntry v := by
  rw [current, h, Option.getD_none]

end Gateway

namespace Telling
open Gateway

/-- One step of the machine by the task `i`, which is about `u`. -/
structure Taken (t : Telling) (i : ℕ) (u : UserId) (next : Gateway × Task) : Prop where
  old : ∀ v, (t.tasks i).userId = some v → v = u
  new : ∀ v, next.2.userId = some v → v = u
  holds : ∀ v, next.2.holds = some v → (t.tasks i).holds = some v ∨
    ((t.tasks i).holds = none ∧ t.heldBy[v]? = none)
  presenceWaits : ∀ v ∈ next.1.presenceHeld, next.2.presenceWaits = some v ∨
    (v ∈ t.gateway.presenceHeld ∧ (t.tasks i).presenceWaits ≠ some v)
  focusWaits : ∀ v ∈ next.1.focusHeld, next.2.focusWaits = some v ∨
    (v ∈ t.gateway.focusHeld ∧ (t.tasks i).focusWaits ≠ some v)
  dmMembers : next.1.dmMembers = t.gateway.dmMembers
  effect : t.gateway.OwnEntries →
    t.gateway.Effect (t.heldBy[u]? = none) u (t.tasks i) next.2 next.1

theorem taken_call {t : Telling} {i : ℕ} {c : PresenceCall} (hi : t.tasks i = .done)
    (hfree : t.heldBy[c.userId]? = none) : Taken t i c.userId (t.gateway.begin c) := by
  have hsame := sameHeld_begin t.gateway c
  refine ⟨?_, ?_, ?_, ?_, ?_, hsame.dmMembers, ?_⟩
  · intro v hv
    rw [hi] at hv
    cases hv
  · exact fun v hv => (begin_userId _ c hv).symm
  · intro v hv
    have hu : c.userId = v := begin_userId _ c (Task.userId_of_holds hv)
    rw [hi, ← hu]
    exact Or.inr ⟨rfl, hfree⟩
  · intro v hv
    rw [hi, ← hsame.presenceHeld]
    exact Or.inr ⟨hv, nofun⟩
  · intro v hv
    rw [hi, ← hsame.focusHeld]
    exact Or.inr ⟨hv, nofun⟩
  · intro _
    rw [hi]
    exact effect_begin c hfree rfl

theorem taken_advance {t : Telling} {i : ℕ} {u : UserId} (o : Outcome)
    (hu : (t.tasks i).userId = some u)
    (hfree : ∀ v, waitsFor (t.tasks i) = some v → t.heldBy[v]? = none) :
    Taken t i u (t.gateway.advance o (t.tasks i)) := by
  refine ⟨?_, ?_, ?_, ?_, ?_, advance_dmMembers _ o _, ?_⟩
  · intro v hv
    exact Option.some.inj (hv.symm.trans hu)
  · intro v hv
    exact Option.some.inj ((advance_userId _ o hv).symm.trans hu)
  · intro v hv
    rcases advance_holds _ o hv with hold | ⟨hold, hv⟩
    · exact Or.inl hold
    · exact Or.inr ⟨hold, hfree v hv⟩
  · exact fun v hv => advance_presenceWaits _ o v hv
  · exact fun v hv => advance_focusWaits _ o v hv
  · exact fun hown => effect_advance o hu (hown u) (hfree u)

/-- Every step begins a call, takes a task on, or changes the list of DMs. -/
theorem step_cases {dmRoom : RoomId → Bool} {t t' : Telling} {a : Act}
    (h : step dmRoom t a = some t') :
    (∃ i c, t.tasks i = .done ∧ t.heldBy[c.userId]? = none ∧
      t' = t.goOn i (t.tasks i) (t.gateway.begin c)) ∨
    (∃ i o u, a = .step i o ∧ (t.tasks i).userId = some u ∧
      (∀ v, waitsFor (t.tasks i) = some v → t.heldBy[v]? = none) ∧
      t' = t.goOn i (t.tasks i) (t.gateway.advance o (t.tasks i))) ∨
    ∃ roomId members, dmRoom roomId ∧
      t' = { t with gateway.dmMembers := t.gateway.dmMembers.alter roomId fun _ => members } := by
  cases a with
  | call i c =>
    simp only [step, ne_eq, Option.ite_none_left_eq_some, Option.some.injEq, not_or, not_not,
      Bool.not_eq_true, Option.isSome_eq_false_iff, Option.isNone_iff_eq_none] at h
    obtain ⟨⟨hi, -, hfree⟩, ht⟩ := h
    exact Or.inl ⟨i, c, hi, hfree, by rw [hi, ht]⟩
  | step i o =>
    simp only [step, Option.ite_none_left_eq_some, Option.some.injEq, not_or] at h
    obtain ⟨⟨hdone, hfree⟩, ht⟩ := h
    have hu : ∃ u, (t.tasks i).userId = some u := by
      cases hi : t.tasks i <;> first | exact ⟨_, rfl⟩ | exact absurd hi hdone
    obtain ⟨u, hu⟩ := hu
    refine Or.inr (Or.inl ⟨i, o, u, rfl, hu, fun v hv => ?_, ht.symm⟩)
    rw [hv] at hfree
    simpa using hfree
  | dms roomId members =>
    simp only [step, Option.ite_none_right_eq_some, Option.some.injEq] at h
    exact Or.inr (Or.inr ⟨roomId, members, h.1, h.2.symm⟩)

theorem tasks_goOn (t : Telling) (i : ℕ) (old : Task) (next : Gateway × Task) (j : ℕ) :
    (t.goOn i old next).tasks j = if j = i then next.2 else t.tasks j := by
  exact Function.update_apply t.tasks i next.2 j

/-- What some task that is none of `i`'s stands at, one still does after `i` goes on. -/
theorem stands_goOn {t : Telling} {i : ℕ} {old : Task} {next : Gateway × Task} {P : Task → Prop}
    (h : ∃ j, P (t.tasks j)) (hi : ¬ P (t.tasks i)) : ∃ j, P ((t.goOn i old next).tasks j) := by
  obtain ⟨j, hj⟩ := h
  refine ⟨j, ?_⟩
  rw [tasks_goOn, if_neg]
  · exact hj
  · rintro rfl
    exact hi hj

theorem stands_goOn_self {t : Telling} {i : ℕ} {old : Task} {next : Gateway × Task}
    {P : Task → Prop} (h : P next.2) : ∃ j, P ((t.goOn i old next).tasks j) := by
  refine ⟨i, ?_⟩
  rw [tasks_goOn, if_pos rfl]
  exact h

/-- What no step of any task undoes. -/
structure TellingInv (t : Telling) : Prop where
  holds : ∀ i u, (t.tasks i).holds = some u ↔ t.heldBy[u]? = some i
  own : t.gateway.OwnEntries
  presenceTurn : ∀ u ∈ t.gateway.presenceHeld, ∃ i, (t.tasks i).presenceWaits = some u
  focusTurn : ∀ u ∈ t.gateway.focusHeld, ∃ i, (t.tasks i).focusWaits = some u
  gone : ∀ i u, t.tasks i = .goneOffline u → t.gateway.presence[u]? = none
  offline : ∀ u : UserId, t.gateway.presence[u]? = none →
    t.gateway.lastSaid u = offlineEntry u ∨ ∃ i, t.tasks i = .goneOffline u
  told : ∀ u, t.gateway.lastSaid u = t.gateway.current u ∨ ∃ i, (t.tasks i).obliged = some u

section Taken
variable {t : Telling} {i : ℕ} {u : UserId} {next : Gateway × Task}

theorem holds_goOn (h : ∀ i u, (t.tasks i).holds = some u ↔ t.heldBy[u]? = some i)
    (hk : Taken t i u next) (j : ℕ) (v : UserId) :
    ((t.goOn i (t.tasks i) next).tasks j).holds = some v ↔
      (t.goOn i (t.tasks i) next).heldBy[v]? = some j := by
  have hold (w : UserId) (hw : (t.tasks i).holds = some w) : w = u :=
    hk.old w (Task.userId_of_holds hw)
  rw [tasks_goOn]
  unfold goOn
  dsimp only
  cases hn : next.2.holds with
  | some w =>
    -- `w` was held by `i` before, or by nobody
    have hw : w = u := hk.new w (Task.userId_of_holds hn)
    subst hw
    dsimp only
    rw [insert_at]
    by_cases hj : j = i
    · subst hj
      rw [if_pos rfl, hn]
      by_cases hv : v = w
      · simp [hv]
      · rw [if_neg hv, ← h]
        exact ⟨fun he => absurd (Option.some.inj he).symm hv, fun he => absurd (hold v he) hv⟩
    · rw [if_neg hj, h]
      by_cases hv : v = w
      · subst hv
        rw [if_pos rfl]
        refine ⟨fun hb => ?_, fun hb => absurd (Option.some.inj hb).symm hj⟩
        rcases hk.holds v hn with hs | ⟨-, hs⟩
        · rw [(h i v).mp hs] at hb
          exact absurd (Option.some.inj hb).symm hj
        · rw [hs] at hb
          cases hb
      · rw [if_neg hv]
  | none =>
    cases ho : (t.tasks i).holds with
    | none =>
      dsimp only
      by_cases hj : j = i
      · subst hj
        rw [if_pos rfl, hn, ← h, ho]
      · rw [if_neg hj, h]
    | some w =>
      dsimp only
      rw [erase_at]
      have hw := (h i w).mp ho
      by_cases hj : j = i
      · subst hj
        rw [if_pos rfl, hn]
        by_cases hv : v = w
        · simp [hv]
        · rw [if_neg hv, ← h, ho]
          exact ⟨nofun, fun he => absurd (Option.some.inj he).symm hv⟩
      · rw [if_neg hj, h]
        by_cases hv : v = w
        · rw [if_pos hv, hv, hw]
          exact ⟨fun he => absurd (Option.some.inj he).symm hj, nofun⟩
        · rw [if_neg hv]

theorem TellingInv.goOn (h : TellingInv t) (hk : Taken t i u next) :
    TellingInv (t.goOn i (t.tasks i) next) := by
  have he := hk.effect h.own
  have hlast : Gateway.Leaves u (t.tasks i) next.2 t.gateway next.1 := he.leaves h.own (h.gone i u)
  have hpt : ∀ v ∈ next.1.presenceHeld,
      ∃ j, ((t.goOn i (t.tasks i) next).tasks j).presenceWaits = some v := by
    intro v hv
    rcases hk.presenceWaits v hv with hw | ⟨hv, hw⟩
    · exact stands_goOn_self (P := fun s => s.presenceWaits = some v) hw
    · exact stands_goOn (P := fun s => s.presenceWaits = some v) (h.presenceTurn v hv) hw
  have hft : ∀ v ∈ next.1.focusHeld,
      ∃ j, ((t.goOn i (t.tasks i) next).tasks j).focusWaits = some v := by
    intro v hv
    rcases hk.focusWaits v hv with hw | ⟨hv, hw⟩
    · exact stands_goOn_self (P := fun s => s.focusWaits = some v) hw
    · exact stands_goOn (P := fun s => s.focusWaits = some v) (h.focusTurn v hv) hw
  -- whoever stands at telling `v` offline, or is obliged to tell `v`, is about `v`
  have hgone_user (v : UserId) (hv : t.tasks i = .goneOffline v) : v = u :=
    hk.old v (by rw [hv]; rfl)
  have hobliged_user (v : UserId) (hv : (t.tasks i).obliged = some v) : v = u :=
    hk.old v (Task.userId_of_obliged hv)
  refine ⟨holds_goOn h.holds hk, he.ownEntries h.own, hpt, hft, ?_, ?_, ?_⟩
  · intro j v hj
    show next.1.presence[v]? = none
    rw [tasks_goOn] at hj
    by_cases hji : j = i
    · rw [if_pos hji] at hj
      have hv : v = u := hk.new v (by rw [hj]; rfl)
      subst hv
      exact he.gone hj
    · rw [if_neg hji] at hj
      have hheld : t.heldBy[v]? = some j := (h.holds j v).mp (by rw [hj]; rfl)
      by_cases hv : v = u
      · subst hv
        refine he.stays_offline (h.gone j v hj) (fun hi => hji ?_) ?_
        · exact Option.some.inj (hheld.symm.trans ((h.holds i v).mp hi))
        · rw [hheld]
          simp
      · rw [(he.others h.own hv).2]
        exact h.gone j v hj
  · intro v hnone
    by_cases hv : v = u
    · subst hv
      cases hlast with
      | said hsaid => exact Or.inl ((lastSaid_snoc hsaid).trans (current_none hnone))
      | changed hobliged hsome hsaid => exact absurd hnone hsome
      | removed hnext hsaid =>
        exact Or.inr (stands_goOn_self (P := fun s => s = .goneOffline v) hnext)
      | quiet hsaid hpresence hold hobliged =>
        rcases h.offline v (by rw [← hpresence]; exact hnone) with hl | hg
        · exact Or.inl ((lastSaid_congr hsaid).trans hl)
        · exact Or.inr (stands_goOn (P := fun s => s = .goneOffline v) hg hold)
    · obtain ⟨hsaid, hp⟩ := he.others h.own hv
      rcases h.offline v (hp ▸ hnone) with hl | hg
      · exact Or.inl ((lastSaid_congr hsaid).trans hl)
      · exact Or.inr (stands_goOn (P := fun s => s = .goneOffline v) hg
          fun hi => hv (hgone_user v hi))
  · intro v
    by_cases hv : v = u
    · subst hv
      cases hlast with
      | said hsaid => exact Or.inl (lastSaid_snoc hsaid)
      | changed hobliged hsome hsaid =>
        exact Or.inr (stands_goOn_self (P := fun s => s.obliged = some v) hobliged)
      | removed hnext hsaid =>
        exact Or.inr (stands_goOn_self (P := fun s => s.obliged = some v) (by rw [hnext]; rfl))
      | quiet hsaid hpresence hold hobliged =>
        have hcur : next.1.current v = t.gateway.current v := current_congr (by rw [hpresence])
        rcases h.told v with hl | ho
        · exact Or.inl ((lastSaid_congr hsaid).trans (hl.trans hcur.symm))
        · by_cases hi : (t.tasks i).obliged = some v
          · -- `i` gives up what it owed only to somebody's held turn, or to nobody being there
            rcases hobliged hi with hn | hheld | hheld | hnone
            · exact Or.inr (stands_goOn_self (P := fun s => s.obliged = some v) hn)
            · obtain ⟨j, hj⟩ := hpt v hheld
              exact Or.inr ⟨j, Task.obliged_of_presenceWaits hj⟩
            · obtain ⟨j, hj⟩ := hft v hheld
              exact Or.inr ⟨j, Task.obliged_of_focusWaits hj⟩
            · rcases h.offline v hnone with hl | hg
              · refine Or.inl ((lastSaid_congr hsaid).trans (hl.trans ?_))
                exact (hcur.trans (current_none hnone)).symm
              · obtain ⟨j, hj⟩ := stands_goOn (P := fun s => s = .goneOffline v) hg hold
                exact Or.inr ⟨j, by rw [hj]; rfl⟩
          · exact Or.inr (stands_goOn (P := fun s => s.obliged = some v) ho hi)
    · obtain ⟨hsaid, hp⟩ := he.others h.own hv
      rcases h.told v with hl | ho
      · exact Or.inl ((lastSaid_congr hsaid).trans (hl.trans (current_congr hp).symm))
      · exact Or.inr (stands_goOn (P := fun s => s.obliged = some v) ho
          fun hi => hv (hobliged_user v hi))

end Taken

theorem tellingInv_start (dmRoom : RoomId → Bool) : TellingInv (machine dmRoom).start := by
  refine ⟨fun i u => ?_, fun u e he => ?_, fun u hu => ?_, fun u hu => ?_, fun i u hi => ?_,
    fun u _ => Or.inl rfl, fun u => Or.inl ?_⟩
  · simp [machine, Task.holds]
  · simp [machine, Gateway.new] at he
  · simp [machine, Gateway.new] at hu
  · simp [machine, Gateway.new] at hu
  · simp [machine] at hi
  · exact (current_none (by simp [machine, Gateway.new])).symm

end Telling
end Linger
