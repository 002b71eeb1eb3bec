import Linger.Brackets
import Linger.GatewayNotLost

/-! What the rooms hear of a person coming and going. Where the late removal of
a `focus_told` entry finds nobody told anywhere, enters and leaves alternate;
where it forgets a room, the next enter comes without a leave. -/
namespace Linger
open FiniteMap StepMachine Brackets

namespace Gateway
variable (dmRoom : RoomId → Bool)

/-- A room that isn't a DM's. -/
def openRoom (room : Option RoomId) : Option RoomId := room.filter fun r => !dmRoom r

/-- What a frame says of one person coming or going, in rooms that aren't DMs'. -/
def markOf (u : UserId) (f : Fanout) : Option (Mark RoomId) :=
  match f.event with
  | .roomEnter r v _ => if v = u ∧ !dmRoom r then some (.enter r) else none
  | .roomLeave r v => if v = u ∧ !dmRoom r then some (.leave r) else none
  | _ => none

def marks (g : Gateway) (u : UserId) : List (Mark RoomId) := g.bus.filterMap (markOf dmRoom u)

/-- The list of DMs holds DMs only. -/
def DmsAreDms (g : Gateway) : Prop := ∀ r, g.isDm r → dmRoom r

variable {dmRoom} {g g' : Gateway} {u : UserId}

theorem marks_publish (g : Gateway) (v : UserId) (e : ServerEvent) :
    (g.publish e).marks dmRoom v =
      g.marks dmRoom v ++ (markOf dmRoom v (Fanout.new e none none (roomOf e))).toList := by
  unfold marks publish
  rw [List.filterMap_append]
  congr 1

theorem marks_tellPresence (g : Gateway) (u v : UserId) :
    (g.tellPresence u).marks dmRoom v = g.marks dmRoom v := by
  unfold tellPresence
  split
  · rw [marks_publish]
    exact List.append_nil _
  · rfl

/-- A room that is told about is heard when it isn't a DM's, whether or not the
list of DMs has it. -/
theorem marks_told (hd : DmsAreDms dmRoom g) {v : UserId} {mark : RoomId → Mark RoomId}
    {tell : RoomId → Gateway} (htell : ∀ r, (tell r).marks dmRoom v = g.marks dmRoom v ++
      if v = u ∧ !dmRoom r then [mark r] else []) (room : Option RoomId) :
    (match room.filter fun r => !g.isDm r with
      | some r => tell r
      | none => g).marks dmRoom v = g.marks dmRoom v ++
        if v = u then ((openRoom dmRoom room).map mark).toList else [] := by
  cases room with
  | none => simp [openRoom]
  | some r =>
    by_cases hdm : g.isDm r
    · simp [openRoom, Option.filter_some, hdm, hd r hdm]
    · simp only [Option.filter_some, hdm, Bool.not_false, if_true]
      rw [htell]
      cases hr : dmRoom r <;> simp [openRoom, Option.filter_some, hr]

theorem marks_tellLeave (hd : DmsAreDms dmRoom g) (before : Option RoomId) (v : UserId) :
    (g.tellLeave u before).marks dmRoom v = g.marks dmRoom v ++
      if v = u then ((openRoom dmRoom before).map Mark.leave).toList else [] := by
  refine marks_told hd (fun r => ?_) before
  rw [marks_publish, marks_publish]
  by_cases hv : v = u
  · subst hv
    cases hr : dmRoom r <;> simp [markOf, Fanout.new, hr]
  · simp [markOf, Fanout.new, hv, Ne.symm hv]

theorem marks_tellEnter (hd : DmsAreDms dmRoom g) (now : Option RoomId) (sound : Option String)
    (v : UserId) : (g.tellEnter u now sound).marks dmRoom v = g.marks dmRoom v ++
      if v = u then ((openRoom dmRoom now).map Mark.enter).toList else [] := by
  refine marks_told hd (fun r => ?_) now
  rw [marks_publish, marks_publish]
  by_cases hv : v = u
  · subst hv
    cases hr : dmRoom r <;> simp [markOf, Fanout.new, hr]
  · simp [markOf, Fanout.new, hv, Ne.symm hv]

theorem DmsAreDms.congr (hd : DmsAreDms dmRoom g) (h : g'.dmMembers = g.dmMembers) :
    DmsAreDms dmRoom g' := by
  intro r hr
  rw [isDm, h] at hr
  exact hd r hr

/-- A told move leaves the room last told of and enters the one they are in. -/
theorem marks_tellFocus {entry : PresenceEntry} (hd : DmsAreDms dmRoom g)
    (h : g.presence[u]? = some entry) (sound : Option String) :
    (g.tellFocus u sound).1.marks dmRoom u = g.marks dmRoom u ++
        (if g.toldRoom u ≠ entry.roomId then
          moveMarks (openRoom dmRoom (g.toldRoom u)) (openRoom dmRoom entry.roomId) else []) := by
  rw [tellFocus_online h]
  dsimp only
  rw [marks_tellPresence]
  split
  · have hleave := onlyTells_tellLeave (g.rememberFocus u (g.toldRoom u)) u (g.toldRoom u)
    refine (marks_tellEnter (hd.congr hleave.dmMembers) entry.roomId sound u).trans ?_
    have hd' : DmsAreDms dmRoom (g.rememberFocus u (g.toldRoom u)) := hd
    rw [marks_tellLeave hd', if_pos rfl, if_pos rfl, List.append_assoc]
    rfl
  · exact (List.append_nil _).symm

theorem marks_tellFocus_other {entry : PresenceEntry} (hd : DmsAreDms dmRoom g)
    (h : g.presence[u]? = some entry) (sound : Option String) {v : UserId} (hv : v ≠ u) :
    (g.tellFocus u sound).1.marks dmRoom v = g.marks dmRoom v := by
  rw [tellFocus_online h]
  dsimp only
  rw [marks_tellPresence]
  split
  · have hleave := onlyTells_tellLeave (g.rememberFocus u (g.toldRoom u)) u (g.toldRoom u)
    refine (marks_tellEnter (hd.congr hleave.dmMembers) entry.roomId sound v).trans ?_
    have hd' : DmsAreDms dmRoom (g.rememberFocus u (g.toldRoom u)) := hd
    rw [marks_tellLeave hd', if_neg hv, if_neg hv, List.append_nil, List.append_nil]
    rfl
  · rfl

theorem focusTold_publish (g : Gateway) (e : ServerEvent) (v : UserId) :
    (g.publish e).toldRoom v = g.toldRoom v := rfl

theorem toldRoom_tellPresence (g : Gateway) (u v : UserId) :
    (g.tellPresence u).toldRoom v = g.toldRoom v := by
  unfold tellPresence
  split <;> rfl

theorem toldRoom_tellLeave (g : Gateway) (u v : UserId) (before : Option RoomId) :
    (g.tellLeave u before).toldRoom v = g.toldRoom v := by
  unfold tellLeave
  split <;> rfl

theorem toldRoom_tellEnter (g : Gateway) (u v : UserId) (now : Option RoomId)
    (sound : Option String) : (g.tellEnter u now sound).toldRoom v = g.toldRoom v := by
  unfold tellEnter
  split <;> rfl

/-- Afterwards everybody is told they are where they are. -/
theorem toldRoom_tellFocus {entry : PresenceEntry} (h : g.presence[u]? = some entry)
    (sound : Option String) (v : UserId) :
    (g.tellFocus u sound).1.toldRoom v = if v = u then entry.roomId else g.toldRoom v := by
  rw [tellFocus_online h]
  dsimp only
  rw [toldRoom_tellPresence]
  split
  · rw [toldRoom_rememberFocus]
    split
    · rfl
    · next hv =>
      rw [toldRoom_tellEnter, toldRoom_tellLeave, toldRoom_rememberFocus, if_neg hv]
  · next hr =>
    rw [toldRoom_rememberFocus]
    rw [not_not.mp hr]

variable {free : Prop} {old next : Task}

/-- What a step does to what the rooms hear of its person: nothing, a move from
where they were last told to be, or a forgetting. -/
theorem Effect.hears (h : Effect free u old next g g') (hd : DmsAreDms dmRoom g)
    (hw : walk none (g.marks dmRoom u) = some (openRoom dmRoom (g.toldRoom u)))
    (hforget : old = .focusForget u ∨ old = .goneTellForget u ∨ old = .goneForget u →
      openRoom dmRoom (g.toldRoom u) = none) :
    walk none (g'.marks dmRoom u) = some (openRoom dmRoom (g'.toldRoom u)) := by
  cases h with
  | kept hbus hpresence htold hobliged hold hnext =>
    rw [htold, marks, hbus]
    exact hw
  | tells h hold hnext =>
    rw [h, marks_tellPresence, toldRoom_tellPresence]
    exact hw
  | moves entry sound he h hold hnext =>
    rw [h, marks_tellFocus hd he, toldRoom_tellFocus he, if_pos rfl]
    split
    · exact walk_move hw
    · next hr =>
      rw [List.append_nil, hw, not_not.mp hr]
  | forgets h hstands =>
    have hn := hforget (hstands.imp And.left (Or.imp And.left And.left))
    rw [hn] at hw
    rw [h, toldRoom_forgetFocus, if_pos rfl]
    exact hw
  | changes entry huser hbus hpresence hfocus hfree hobliged hold hnext =>
    rw [marks, hbus, toldRoom, hfocus]
    exact hw
  | removes h hold hnext =>
    rw [h]
    exact hw
  | offline h hold hnext =>
    rw [h, tellOffline, marks_publish, focusTold_publish]
    exact (congrArg (walk none) (List.append_nil _)).trans hw

theorem Effect.hears_other (h : Effect free u old next g g') (hd : DmsAreDms dmRoom g)
    {v : UserId} (hv : v ≠ u) :
    g'.marks dmRoom v = g.marks dmRoom v ∧ g'.toldRoom v = g.toldRoom v := by
  cases h with
  | kept hbus hpresence htold hobliged hold hnext =>
    exact ⟨congrArg (List.filterMap (markOf dmRoom v)) hbus, htold v⟩
  | tells h hold hnext =>
    rw [h]
    exact ⟨marks_tellPresence g u v, toldRoom_tellPresence g u v⟩
  | moves entry sound he h hold hnext =>
    rw [h]
    exact ⟨marks_tellFocus_other hd he sound hv, (toldRoom_tellFocus he sound v).trans (if_neg hv)⟩
  | forgets h hstands =>
    rw [h]
    exact ⟨rfl, (toldRoom_forgetFocus g u v).trans (if_neg hv)⟩
  | changes entry huser hbus hpresence hfocus hfree hobliged hold hnext =>
    refine ⟨congrArg (List.filterMap (markOf dmRoom v)) hbus, ?_⟩
    rw [toldRoom, hfocus, toldRoom]
  | removes h hold hnext =>
    rw [h]
    exact ⟨rfl, rfl⟩
  | offline h hold hnext =>
    rw [h]
    refine ⟨(marks_publish g v _).trans (List.append_nil _), rfl⟩

/-- In no room, as far as the entry everybody is told from says. -/
def Roomless (g : Gateway) (u : UserId) : Prop :=
  (g.presence[u]?).bind PresenceEntry.roomId = none

/-- What a closing call that is taking its person offline has seen to by each of
its steps, and nobody else undoes while it holds their entry. -/
def Standing (dmRoom : RoomId → Bool) (g : Gateway) : Task → Prop
  | .goneTold u _ | .goneTell u => g.Roomless u
  | .goneTellForget u => g.presence[u]? = none
  | .goneForget u | .gonePresence u => g.Roomless u ∧ openRoom dmRoom (g.toldRoom u) = none
  | _ => True

theorem roomless_of_none (h : g.presence[u]? = none) : g.Roomless u := by
  rw [Roomless, h, Option.bind_none]

theorem roomless_goneFromRoom (g : Gateway) (u : UserId) : (g.goneFromRoom u).1.Roomless u := by
  unfold goneFromRoom
  cases hp : g.presence[u]? with
  | none => exact roomless_of_none hp
  | some entry =>
    dsimp only
    split
    · show ((g.presence.insert u _)[u]?).bind PresenceEntry.roomId = none
      rw [insert_at, if_pos rfl]
      rfl
    · next hr =>
      rw [Roomless, hp, Option.bind_some]
      simpa using hr

theorem openRoom_none : openRoom dmRoom none = none := rfl

theorem standing_begin (g : Gateway) (c : PresenceCall) :
    Standing dmRoom (g.begin c).1 (g.begin c).2 := by
  cases c <;> dsimp only [begin, afterClosing, Prod.map_snd] <;> try split
  all_goals trivial

/-- Each step of a closing call leaves the next one what it stands on. -/
theorem standing_advance (o : Outcome) (h : Standing dmRoom g old) :
    Standing dmRoom (g.advance o old).1 (g.advance o old).2 := by
  cases old with
  | goneRoom u => exact roomless_goneFromRoom g u
  | goneTold u moved =>
    dsimp only [advance]
    split
    · exact h
    · next hn =>
      have hn : g.toldRoom u = none := by
        rw [Bool.or_eq_true, not_or] at hn
        simpa [toldSomewhere, toldRoom] using hn.2
      exact ⟨h, by rw [hn, openRoom_none]⟩
  | goneTell u =>
    dsimp only [advance]
    cases hp : g.presence[u]? with
    | none =>
      rw [tellFocus_offline hp]
      exact hp
    | some entry =>
      have hroom : entry.roomId = none := by
        have h : g.Roomless u := h
        rwa [Roomless, hp, Option.bind_some] at h
      have hoff : (g.tellFocus u none).2 = false := by rw [tellFocus_online hp]
      simp only [hoff, Bool.false_eq_true, if_false]
      refine ⟨?_, ?_⟩
      · rw [Roomless, (onlyTells_tellFocus g u none).presence, hp, Option.bind_some, hroom]
      · rw [toldRoom_tellFocus hp, if_pos rfl, hroom, openRoom_none]
  | goneTellForget u =>
    have hr : g.Roomless u := roomless_of_none h
    refine ⟨hr, ?_⟩
    show openRoom dmRoom ((g.forgetFocus u).toldRoom u) = none
    rw [toldRoom_forgetFocus, if_pos rfl, openRoom_none]
  | goneForget u =>
    refine ⟨h.1, ?_⟩
    show openRoom dmRoom ((g.forgetFocus u).toldRoom u) = none
    rw [toldRoom_forgetFocus, if_pos rfl, openRoom_none]
  | grace u s number => exact standing_begin g _
  | told u m => cases m <;> trivial
  | _ =>
    simp only [advance]
    try split
    all_goals trivial

/-- Nobody but the holder of a person's entry puts them in a room, or tells of one. -/
theorem Effect.roomless (h : Effect free u old next g g') (hr : g.Roomless u)
    (hheld : old.holds ≠ some u) (hfree : ¬ free) :
    g'.Roomless u ∧
      (openRoom dmRoom (g.toldRoom u) = none → openRoom dmRoom (g'.toldRoom u) = none) := by
  cases h with
  | kept hbus hpresence htold hobliged hold hnext =>
    rw [Roomless, hpresence, htold]
    exact ⟨hr, id⟩
  | tells h hold hnext =>
    rw [h, Roomless, (onlyTells_tellPresence g u).presence, toldRoom_tellPresence]
    exact ⟨hr, id⟩
  | moves entry sound he h hold hnext =>
    rw [h, Roomless, (onlyTells_tellFocus g u sound).presence, toldRoom_tellFocus he, if_pos rfl]
    refine ⟨hr, fun _ => ?_⟩
    rw [Roomless, he, Option.bind_some] at hr
    rw [hr, openRoom_none]
  | forgets h hstands =>
    rw [h, toldRoom_forgetFocus, if_pos rfl, openRoom_none]
    exact ⟨hr, fun _ => rfl⟩
  | changes entry huser hbus hpresence hfocus hf hobliged hold hnext =>
    rcases hf with hf | hf
    · exact absurd hf hheld
    · exact absurd hf hfree
  | removes h hold hnext =>
    rw [h]
    exact ⟨roomless_of_none ((erase_at g.presence u u).trans (if_pos rfl)), id⟩
  | offline h hold hnext =>
    rw [h]
    exact ⟨hr, id⟩

/-- What another task stands on is kept: it is about somebody else, or holds the entry. -/
theorem Standing.kept {s : Task} (hs : Standing dmRoom g s) (he : Effect free u old next g g')
    (hown : OwnEntries g) (hd : DmsAreDms dmRoom g)
    (hheld : s.holds = some u → old.holds ≠ some u ∧ ¬ free) : Standing dmRoom g' s := by
  have hroom {v : UserId} (hsv : s.holds = some v) (hr : g.Roomless v) :
      g'.Roomless v ∧
        (openRoom dmRoom (g.toldRoom v) = none → openRoom dmRoom (g'.toldRoom v) = none) := by
    by_cases hv : v = u
    · subst hv
      exact he.roomless hr (hheld hsv).1 (hheld hsv).2
    · rw [Roomless, (he.others hown hv).2, (he.hears_other hd hv).2]
      exact ⟨hr, id⟩
  cases s with
  | goneTold v moved => exact (hroom rfl hs).1
  | goneTell v => exact (hroom rfl hs).1
  | goneTellForget v =>
    by_cases hv : v = u
    · subst hv
      exact he.stays_offline hs (hheld rfl).1 (hheld rfl).2
    · exact (he.others hown hv).2.trans hs
  | goneForget v => exact ⟨(hroom rfl hs.1).1, (hroom rfl hs.1).2 hs.2⟩
  | gonePresence v => exact ⟨(hroom rfl hs.1).1, (hroom rfl hs.1).2 hs.2⟩
  | _ => trivial

/-- Somebody offline by the end of a step was told nowhere by then. -/
theorem Effect.offline_nowhere (h : Effect free u old next g g')
    (hoff : g.presence[u]? = none → openRoom dmRoom (g.toldRoom u) = none)
    (hgone : old = .gonePresence u → openRoom dmRoom (g.toldRoom u) = none)
    (hnone : g'.presence[u]? = none) : openRoom dmRoom (g'.toldRoom u) = none := by
  cases h with
  | kept hbus hpresence htold hobliged hold hnext =>
    rw [htold]
    exact hoff (hpresence ▸ hnone)
  | tells h hold hnext =>
    rw [h, (onlyTells_tellPresence g u).presence] at hnone
    rw [h, toldRoom_tellPresence]
    exact hoff hnone
  | moves entry sound he h hold hnext =>
    rw [h, (onlyTells_tellFocus g u sound).presence, he] at hnone
    cases hnone
  | forgets h hstands => rw [h, toldRoom_forgetFocus, if_pos rfl, openRoom_none]
  | changes entry huser hbus hpresence hfocus hf hobliged hold hnext =>
    rw [hpresence, insert_at, if_pos rfl] at hnone
    cases hnone
  | removes h hold hnext =>
    rw [h]
    exact hgone hold
  | offline h hold hnext =>
    rw [h] at hnone ⊢
    exact hoff hnone

end Gateway

namespace Telling
open Gateway
variable {dmRoom : RoomId → Bool}

/-- A teller that found its person offline removes their `focus_told` entry in
a step of its own. By then they are told in no room again. -/
def ForgetsNobody (dmRoom : RoomId → Bool) (t : Telling) : Act → Prop
  | .step i _ =>
    match t.tasks i with
    | .focusForget u => openRoom dmRoom (t.gateway.toldRoom u) = none
    | _ => True
  | _ => True

structure BracketInv (dmRoom : RoomId → Bool) (t : Telling) : Prop where
  telling : TellingInv t
  dms : DmsAreDms dmRoom t.gateway
  walked : ∀ u, walk none (t.gateway.marks dmRoom u) =
    some (openRoom dmRoom (t.gateway.toldRoom u))
  offline : ∀ u : UserId, t.gateway.presence[u]? = none →
    openRoom dmRoom (t.gateway.toldRoom u) = none
  standing : ∀ i, Standing dmRoom t.gateway (t.tasks i)

theorem BracketInv.goOn {t : Telling} {i : ℕ} {u : UserId} {next : Gateway × Task}
    (h : BracketInv dmRoom t) (hk : Taken t i u next)
    (hforget : t.tasks i = .focusForget u → openRoom dmRoom (t.gateway.toldRoom u) = none)
    (hnext : Standing dmRoom next.1 next.2) : BracketInv dmRoom (t.goOn i (t.tasks i) next) := by
  have he := hk.effect h.telling.own
  have hstanding := h.standing i
  refine ⟨h.telling.goOn hk, h.dms.congr hk.dmMembers, fun v => ?_, fun v hnone => ?_, fun j => ?_⟩
  · by_cases hv : v = u
    · subst hv
      refine he.hears h.dms (h.walked v) fun hf => ?_
      rcases hf with hf | hf | hf
      · exact hforget hf
      · rw [hf] at hstanding
        exact h.offline v hstanding
      · rw [hf] at hstanding
        exact hstanding.2
    · have hk := he.hears_other h.dms hv
      show walk none (next.1.marks dmRoom v) = some (openRoom dmRoom (next.1.toldRoom v))
      rw [hk.1, hk.2]
      exact h.walked v
  · by_cases hv : v = u
    · subst hv
      refine he.offline_nowhere (h.offline v) (fun hf => ?_) hnone
      rw [hf] at hstanding
      exact hstanding.2
    · have hp := (he.others h.telling.own hv).2
      show openRoom dmRoom (next.1.toldRoom v) = none
      rw [(he.hears_other h.dms hv).2]
      exact h.offline v (hp ▸ hnone)
  · rw [tasks_goOn]
    by_cases hj : j = i
    · rw [if_pos hj]
      exact hnext
    · rw [if_neg hj]
      refine (h.standing j).kept he h.telling.own h.dms fun hheld => ?_
      have hjheld := (h.telling.holds j u).mp hheld
      refine ⟨fun hi => hj ?_, fun hfree => ?_⟩
      · exact Option.some.inj (hjheld.symm.trans ((h.telling.holds i u).mp hi))
      · rw [hfree] at hjheld
        cases hjheld

theorem bracketInv_step {t t' : Telling} {a : Act} (h : BracketInv dmRoom t)
    (hok : ForgetsNobody dmRoom t a) (hs : step dmRoom t a = some t') : BracketInv dmRoom t' := by
  rcases step_cases hs with ⟨i, c, hi, hfree, rfl⟩ | ⟨i, o, u, rfl, hu, hfree, rfl⟩ |
    ⟨roomId, members, hd, rfl⟩
  · refine h.goOn (taken_call hi hfree) (fun hf => ?_) (standing_begin _ c)
    rw [hi] at hf
    cases hf
  · refine h.goOn (taken_advance o hu hfree) (fun hf => ?_) (standing_advance o (h.standing i))
    simpa only [ForgetsNobody, hf] using hok
  · have ht := h.telling
    refine ⟨⟨ht.holds, ht.own, ht.presenceTurn, ht.focusTurn, ht.gone, ht.offline, ht.told⟩,
      fun r hr => ?_, h.walked, h.offline, h.standing⟩
    by_cases hroom : r = roomId
    · rw [hroom]
      exact hd
    · refine h.dms r ?_
      simpa [isDm, Std.ExtTreeMap.getElem?_alter, Ne.symm hroom] using hr

theorem bracketInv_start : BracketInv dmRoom (machine dmRoom).start := by
  refine ⟨tellingInv_start dmRoom, fun r hr => ?_, fun u => ?_, fun u _ => ?_, fun i => trivial⟩
  · simp [machine, Gateway.new, isDm] at hr
  · simp [machine, Gateway.new, marks, toldRoom, walk, openRoom]
  · simp [machine, Gateway.new, toldRoom, openRoom]

/-- Where no late removal forgets a room, rooms hear each person enter and
leave by turns, and nobody offline is left in one. -/
theorem rooms_hear_brackets {acts : List Act} {t : Telling}
    (hok : (machine dmRoom).Meets (ForgetsNobody dmRoom) acts)
    (ht : (machine dmRoom).run acts = some t) (u : UserId) :
    Alternates (t.gateway.marks dmRoom u) ∧
      (t.gateway.presence[u]? = none → unmatched (t.gateway.marks dmRoom u) = none) := by
  have h : BracketInv dmRoom t := (machine dmRoom).invariant_of_meets bracketInv_start
    (fun _ _ _ h hok hs => bracketInv_step h hok hs) hok ht
  refine ⟨walk_alternates (h.walked u), fun hnone => ?_⟩
  rw [walk_unmatched (h.walked u), h.offline u hnone]

instance decidableForgetsNobody (t : Telling) (a : Act) : Decidable (ForgetsNobody dmRoom t a) := by
  unfold ForgetsNobody
  split
  · split <;> infer_instance
  · infer_instance

/-- Task `i` goes on `n` times, at once whatever the limiter is asked. -/
def goes (i n : ℕ) : List Act := List.replicate n (.step i ⟨true, none⟩)

/-- A move past the limit is held; its person closes their only session and is
told offline, and the held turn finds nobody there. -/
def heldTurnFindsNobody : List Act :=
  [.call 0 (.connectionOpened 1 10)] ++ goes 0 1 ++ [.call 0 (.moveTo 1 10 (some 5))] ++
    goes 0 2 ++ [.step 0 ⟨false, none⟩] ++ goes 0 1 ++
    [.call 1 (.connectionClosed 1 10)] ++ goes 1 7 ++ goes 0 4

theorem rooms_hear_brackets_heldTurn :
    ∃ t, (machine fun _ => false).run (heldTurnFindsNobody ++ goes 0 1) = some t ∧
      t.gateway.presence[1]? = none ∧
      Alternates (t.gateway.marks (fun _ => false) 1) ∧
      (t.gateway.presence[1]? = none → unmatched (t.gateway.marks (fun _ => false) 1) = none) := by
  have hok : (machine fun _ => false).Meets (ForgetsNobody fun _ => false)
      (heldTurnFindsNobody ++ goes 0 1) := by decide
  exact ⟨_, rfl, by decide, rooms_hear_brackets hok rfl 1⟩

/-- Before that turn removes their `focus_told` entry they are back and told
to be in a room, and the removal forgets it: the next room hears them enter and
the last one never hears them leave. -/
def lateForget : List Act :=
  heldTurnFindsNobody ++ [.call 2 (.connectionOpened 1 11)] ++ goes 2 1 ++
    [.call 2 (.moveTo 1 11 (some 5))] ++ goes 2 5 ++ goes 0 1 ++
    [.call 2 (.moveTo 1 11 (some 6))] ++ goes 2 5

theorem lateForget_enters_twice :
    ∃ t, (machine fun _ => false).run lateForget = some t ∧
      t.gateway.marks (fun _ => false) 1 = [.enter 5, .enter 6] ∧
      ¬ Alternates (t.gateway.marks (fun _ => false) 1) := by
  have hm : ∃ t, (machine fun _ => false).run lateForget = some t ∧
      t.gateway.marks (fun _ => false) 1 = [.enter 5, .enter 6] := ⟨_, rfl, by decide⟩
  obtain ⟨t, ht, hm⟩ := hm
  refine ⟨t, ht, hm, fun ha => ?_⟩
  exact ha.enter [.enter 5] 6 [] hm 5 rfl

end Telling
end Linger
