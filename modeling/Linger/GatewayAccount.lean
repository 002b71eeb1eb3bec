import Linger.GatewayCalls

/-! The merge invariant: which session moved, or went away, most recently is
never in doubt, so what everybody is told is one thing whatever order the
sessions are read in. -/
namespace Linger
open FiniteMap StepMachine

/-- Among the records `p` picks, `f` numbers each one differently, with numbers
already handed out. -/
def Stamped (p : SessionPresence → Bool) (f : SessionPresence → ℕ) (order : ℕ)
    (rs : FMap SessionId SessionPresence) : Prop :=
  ∀ (s : SessionId) (r : SessionPresence), rs[s]? = some r → p r →
    f r ≤ order ∧ ∀ (s' : SessionId) (r' : SessionPresence), rs[s']? = some r' → p r' →
      f r' = f r → s' = s

section Stamped
variable {p : SessionPresence → Bool} {f : SessionPresence → ℕ} {order : ℕ}
  {rs : FMap SessionId SessionPresence}

theorem Stamped.empty : Stamped p f order ∅ := by
  intro s r h
  simp at h

theorem Stamped.erase (h : Stamped p f order rs) (s : SessionId) :
    Stamped p f order (rs.erase s) := by
  intro t r ht hp
  rw [erase_at] at ht
  split at ht
  · cases ht
  · refine ⟨(h t r ht hp).1, fun t' r' ht' hp' hf => ?_⟩
    rw [erase_at] at ht'
    split at ht'
    · cases ht'
    · exact (h t r ht hp).2 t' r' ht' hp' hf

/-- A record written with the next number is apart from every other. -/
theorem Stamped.insert_fresh (h : Stamped p f order rs) (s : SessionId) (own : SessionPresence)
    (hf : f own = order + 1) : Stamped p f (order + 1) (rs.insert s own) := by
  intro t r ht hp
  rw [insert_at] at ht
  split at ht
  · next hts =>
    cases ht
    refine ⟨hf.le, fun t' r' ht' hp' hf' => ?_⟩
    rw [insert_at] at ht'
    split at ht'
    · next hts' => rw [hts, hts']
    · have := (h t' r' ht' hp').1
      omega
  · refine ⟨(h t r ht hp).1.trans (Nat.le_succ _), fun t' r' ht' hp' hf' => ?_⟩
    rw [insert_at] at ht'
    split at ht'
    · cases ht'
      have := (h t r ht hp).1
      omega
    · exact (h t r ht hp).2 t' r' ht' hp' hf'

/-- A record written over another keeps its number, unless `p` no longer picks it. -/
theorem Stamped.insert_kept (h : Stamped p f order rs) {s : SessionId} {own : SessionPresence}
    (hk : p own → ∃ old, rs[s]? = some old ∧ p old ∧ f old = f own) :
    Stamped p f order (rs.insert s own) := by
  have hback (t : SessionId) (r : SessionPresence) (ht : (rs.insert s own)[t]? = some r)
      (hp : p r) : ∃ r₀, rs[t]? = some r₀ ∧ p r₀ ∧ f r₀ = f r := by
    rw [insert_at] at ht
    split at ht
    · next hts =>
      cases ht
      rw [hts]
      exact hk hp
    · exact ⟨r, ht, hp, rfl⟩
  intro t r ht hp
  obtain ⟨r₀, ht₀, hp₀, hf₀⟩ := hback t r ht hp
  refine ⟨hf₀ ▸ (h t r₀ ht₀ hp₀).1, fun t' r' ht' hp' hf' => ?_⟩
  obtain ⟨r₁, ht₁, hp₁, hf₁⟩ := hback t' r' ht' hp'
  exact (h t r₀ ht₀ hp₀).2 t' r₁ ht₁ hp₁ (by rw [hf₁, hf', hf₀])

theorem Stamped.map (h : Stamped p f order rs) (k : SessionPresence → SessionPresence)
    (hk : ∀ r, p (k r) → p r ∧ f (k r) = f r) : Stamped p f order (rs.map fun _ r => k r) := by
  have hback (t : SessionId) (r : SessionPresence)
      (ht : (rs.map fun _ r => k r)[t]? = some r) : ∃ r₀, rs[t]? = some r₀ ∧ k r₀ = r := by
    rwa [Std.ExtTreeMap.getElem?_map, Option.map_eq_some_iff] at ht
  intro t r ht hp
  obtain ⟨r₀, ht₀, rfl⟩ := hback t r ht
  obtain ⟨hp₀, hf₀⟩ := hk r₀ hp
  refine ⟨hf₀ ▸ (h t r₀ ht₀ hp₀).1, fun t' r' ht' hp' hf' => ?_⟩
  obtain ⟨r₁, ht₁, rfl⟩ := hback t' r' ht'
  obtain ⟨hp₁, hf₁⟩ := hk r₁ hp'
  exact (h t r₀ ht₀ hp₀).2 t' r₁ ht₁ hp₁ (by rw [← hf₁, hf', hf₀])

theorem Stamped.mono {n : ℕ} (h : Stamped p f n rs) {order' : ℕ} (ho : n ≤ order') :
    Stamped p f order' rs :=
  fun s r hs hp => ⟨(h s r hs hp).1.trans ho, (h s r hs hp).2⟩

theorem Stamped.apart (h : Stamped p f order rs) :
    ∀ a ∈ vals rs, ∀ b ∈ vals rs, p a → p b → f a = f b → a = b := by
  intro a ha b hb hpa hpb hf
  obtain ⟨s, hs⟩ := (mem_vals rs a).mp ha
  obtain ⟨t, ht⟩ := (mem_vals rs b).mp hb
  have := (h t b ht hpb).2 s a hs hpa hf
  rw [this, ht] at hs
  exact (Option.some.inj hs).symm

end Stamped

def SessionPresence.isAway (r : SessionPresence) : Bool := r.state = .away
def SessionPresence.inRoom (r : SessionPresence) : Bool := r.roomId.isSome

structure Stamps (order : ℕ) (rs : FMap SessionId SessionPresence) : Prop where
  away : Stamped SessionPresence.isAway SessionPresence.awayAt order rs
  room : Stamped SessionPresence.inRoom SessionPresence.movedAt order rs

theorem Stamps.perm {order : ℕ} {rs : FMap SessionId SessionPresence} (h : Stamps order rs)
    {xs : List SessionPresence} (hp : xs.Perm (vals rs)) (u : UserId) :
    merge u xs = merge u (vals rs) := by
  refine (merge_perm u hp.symm ?_ ?_).symm
  · intro a ha b hb hpa hpb
    exact h.away.apart a ha b hb (by simpa [SessionPresence.isAway])
      (by simpa [SessionPresence.isAway])
  · intro a ha b hb hpa hpb
    exact h.room.apart a ha b hb hpa hpb

/-- Writing a record whose rooms and aways are numbered as before. -/
theorem Stamps.insert_kept {order : ℕ} {rs : FMap SessionId SessionPresence} (h : Stamps order rs)
    {s : SessionId} {own : SessionPresence}
    (ha : own.isAway → ∃ old, rs[s]? = some old ∧ old.isAway ∧ old.awayAt = own.awayAt)
    (hr : own.inRoom → ∃ old, rs[s]? = some old ∧ old.inRoom ∧ old.movedAt = own.movedAt) :
    Stamps order (rs.insert s own) :=
  ⟨h.away.insert_kept ha, h.room.insert_kept hr⟩

theorem Stamps.insert_say {order : ℕ} {rs : FMap SessionId SessionPresence} (h : Stamps order rs)
    {s : SessionId} {old own : SessionPresence} (hs : rs[s]? = some old)
    (hsay : own.say = old.say) :
    Stamps order (rs.insert s own) := by
  -- each of the four fields the numbers hang on is one `say` keeps
  have keeps {α : Type} (f : SessionPresence → α) (hf : ∀ r, f r.say = f r) : f own = f old := by
    rw [← hf own, hsay, hf]
  have hstate := keeps SessionPresence.state fun _ => rfl
  have haway := keeps SessionPresence.awayAt fun _ => rfl
  have hroom := keeps SessionPresence.roomId fun _ => rfl
  have hmoved := keeps SessionPresence.movedAt fun _ => rfl
  refine h.insert_kept (fun ha => ⟨old, hs, ?_, haway.symm⟩)
    (fun hr => ⟨old, hs, ?_, hmoved.symm⟩)
  · simpa [SessionPresence.isAway, hstate] using ha
  · simpa [SessionPresence.inRoom, hroom] using hr

theorem say_insert {rs : FMap SessionId SessionPresence} {s : SessionId}
    {old own : SessionPresence} (hs : rs[s]? = some old) (hsay : own.say = old.say)
    (t : SessionId) : ((rs.insert s own)[t]?).map SessionPresence.say =
      (rs[t]?).map SessionPresence.say := by
  rw [insert_at]
  split
  · next ht => rw [ht, hs, Option.map_some, Option.map_some, hsay]
  · rfl

namespace Gateway

structure PresenceInv (g : Gateway) : Prop where
  nonempty : NoneEmpty g
  merged : ∀ u, g.presence[u]? = merge u (vals (g.recordsOf u))
  stamps : ∀ u, Stamps g.presenceOrder (g.recordsOf u)

/-- What one call does: it settles its person on some records, answering `m`,
and hands out numbers that keep those records apart. -/
def Accounts (g : Gateway) (u : UserId) (g' : Gateway) (m : Merged) : Prop :=
  ∃ rs, Settles g u rs g' m ∧ g.presenceOrder ≤ g'.presenceOrder ∧
    Stamps g'.presenceOrder rs

theorem PresenceInv.of_accounts {g g' : Gateway} {u : UserId} {m : Merged} (h : PresenceInv g)
    (ha : Accounts g u g' m) : PresenceInv g' := by
  obtain ⟨rs, hs, ho, hst⟩ := ha
  refine ⟨hs.nonempty h.nonempty, fun v => ?_, fun v => ?_⟩
  · rw [hs.presence, hs.records]
    split
    · next hv => rw [hv]
    · exact h.merged v
  · rw [hs.records]
    split
    · exact hst
    · exact ⟨(h.stamps v).away.mono ho, (h.stamps v).room.mono ho⟩

theorem remerge_presenceOrder (g : Gateway) (u : UserId) (rs : FMap SessionId SessionPresence) :
    (g.remerge u rs).1.presenceOrder = g.presenceOrder := by
  unfold remerge
  split
  · rfl
  · split
    · split <;> rfl
    · rfl

theorem writeOwn_presenceOrder (g : Gateway) (u : UserId) (s : SessionId) (own : SessionPresence) :
    (g.writeOwn u s own).1.presenceOrder = g.presenceOrder :=
  remerge_presenceOrder _ _ _

theorem sessionGone_presenceOrder (g : Gateway) (u : UserId) (s : SessionId) :
    (g.sessionGone u s).1.presenceOrder = g.presenceOrder := by
  unfold sessionGone sessionLeaves
  dsimp only
  split
  · exact (goOffline_sessionPresence _ u).2
  · exact remerge_presenceOrder _ _ _

theorem accounts_unchanged {g : Gateway} (h : PresenceInv g) (u : UserId) :
    Accounts g u g .same :=
  ⟨g.recordsOf u, settles_unchanged (h.merged u), le_rfl, h.stamps u⟩

theorem Accounts.of_order {g g' : Gateway} {u : UserId} {m : Merged} {n : ℕ}
    (ho : g.presenceOrder ≤ n) (h : Accounts { g with presenceOrder := n } u g' m) :
    Accounts g u g' m := by
  obtain ⟨rs, hs, ho', hst⟩ := h
  exact ⟨rs, ⟨hs.records, hs.nonempty, hs.presence, hs.answer⟩, ho.trans ho', hst⟩

theorem accounts_writeOwn (g : Gateway) (u : UserId) (s : SessionId) (own : SessionPresence)
    (hst : Stamps g.presenceOrder ((g.recordsOf u).insert s own)) :
    Accounts g u (g.writeOwn u s own).1 (g.writeOwn u s own).2 :=
  ⟨_, settles_writeOwn g u s own, (writeOwn_presenceOrder g u s own).ge,
    (writeOwn_presenceOrder g u s own).symm ▸ hst⟩

/-- A record kept another way, saying what it said. -/
theorem accounts_kept {g g' : Gateway} (h : PresenceInv g) {u : UserId} {s : SessionId}
    {old r : SessionPresence} (hs : (g.recordsOf u)[s]? = some old) (hsay : r.say = old.say)
    (hr : g'.sessionPresence = g.sessionPresence.insert u ((g.recordsOf u).insert s r))
    (hp : g'.presence = g.presence) (ho : g'.presenceOrder = g.presenceOrder) :
    Accounts g u g' .same :=
  ⟨_, settles_kept (h.merged u) (insert_ne_empty _ _ _) (say_insert hs hsay) hr hp, ho.ge,
    ho.symm ▸ (h.stamps u).insert_say hs hsay⟩

/-- The last socket's record, kept another way for a moment, is gone. -/
theorem accounts_sessionGone {g : Gateway} (h : PresenceInv g) (u : UserId) (s : SessionId)
    (own : SessionPresence) :
    Accounts g u ((g.putRecords u ((g.recordsOf u).insert s own)).sessionGone u s).1
      ((g.putRecords u ((g.recordsOf u).insert s own)).sessionGone u s).2 := by
  have hs := (settles_sessionGone (g.putRecords u ((g.recordsOf u).insert s own)) u s).of_put
    (insert_ne_empty _ _ _)
  have he : ((g.putRecords u ((g.recordsOf u).insert s own)).recordsOf u).erase s =
      (g.recordsOf u).erase s := by
    rw [recordsOf_putRecords, if_pos rfl]
    ext1 t
    simp only [erase_at, insert_at]
    split <;> rfl
  rw [he] at hs
  have ho := sessionGone_presenceOrder (g.putRecords u ((g.recordsOf u).insert s own)) u s
  exact ⟨_, hs, ho.ge, ho.symm ▸ ⟨(h.stamps u).away.erase s, (h.stamps u).room.erase s⟩⟩

/-- Speaking again keeps the numbers a record has, or drops what they number. -/
theorem speaksAgain_room (own : SessionPresence) (h : own.speaksAgain.1.roomId.isSome) :
    own.inRoom ∧ own.movedAt = own.speaksAgain.1.movedAt := by
  unfold SessionPresence.speaksAgain at h ⊢
  split at h
  · simp [SessionPresence.arrived] at h
  · next hn =>
    rw [if_neg hn]
    exact ⟨h, rfl⟩

theorem speaksAgain_away (own : SessionPresence) (h : own.speaksAgain.1.state = .away) :
    own.isAway ∧ own.awayAt = own.speaksAgain.1.awayAt := by
  unfold SessionPresence.speaksAgain at h ⊢
  split at h
  · simp [SessionPresence.arrived] at h
  · next hn =>
    rw [if_neg hn]
    exact ⟨decide_eq_true h, rfl⟩

theorem accounts_updatePresence {g : Gateway} (h : PresenceInv g) (u : UserId) (s : SessionId)
    (state : PresenceState) (awayMessage : Option String) :
    Accounts g u (g.updatePresence u s state awayMessage).1
      (g.updatePresence u s state awayMessage).2 := by
  unfold updatePresence
  cases hs : (g.recordsOf u)[s]? with
  | none => exact accounts_unchanged h u
  | some own =>
    dsimp only
    split
    · exact accounts_unchanged h u
    · by_cases ha : saidState state = .away
      · simp only [ha, if_true]
        refine Accounts.of_order (n := g.presenceOrder + 1) (Nat.le_succ _)
          (accounts_writeOwn _ u s _ ⟨(h.stamps u).away.insert_fresh s _ rfl, ?_⟩)
        refine Stamped.mono (n := g.presenceOrder)
          (Stamped.insert_kept (h.stamps u).room ?_) (Nat.le_succ _)
        exact fun hr => ⟨own, hs, speaksAgain_room own hr⟩
      · simp only [ha, if_false]
        refine Accounts.of_order le_rfl (accounts_writeOwn _ u s _ ((h.stamps u).insert_kept ?_ ?_))
        · intro hp
          simp [SessionPresence.isAway, ha] at hp
        · exact fun hr => ⟨own, hs, speaksAgain_room own hr⟩

theorem accounts_moveTo {g : Gateway} (h : PresenceInv g) (u : UserId) (s : SessionId)
    (roomId : Option RoomId) :
    Accounts g u (g.moveTo u s roomId).1 (g.moveTo u s roomId).2 := by
  unfold moveTo
  cases hs : (g.recordsOf u)[s]? with
  | none => exact accounts_unchanged h u
  | some own =>
    dsimp only
    split
    · exact accounts_unchanged h u
    · refine Accounts.of_order (n := g.presenceOrder + 1) (Nat.le_succ _)
        (accounts_writeOwn _ u s _ ⟨?_, (h.stamps u).room.insert_fresh s _ rfl⟩)
      refine Stamped.mono (n := g.presenceOrder)
        (Stamped.insert_kept (h.stamps u).away ?_) (Nat.le_succ _)
      intro ha
      refine ⟨own, hs, speaksAgain_away own ?_⟩
      simp only [SessionPresence.isAway, decide_eq_true_eq] at ha
      split at ha
      · cases ha
      · exact ha

theorem comeBack_isAway (own : SessionPresence) : own.comeBack.isAway = false := by
  unfold SessionPresence.comeBack SessionPresence.isAway
  split
  · rfl
  · next h => simpa using h

theorem comeBack_room (own : SessionPresence) :
    own.comeBack.roomId = own.roomId ∧ own.comeBack.movedAt = own.movedAt := by
  unfold SessionPresence.comeBack
  split <;> exact ⟨rfl, rfl⟩

theorem accounts_backEverywhere {g : Gateway} (h : PresenceInv g) (u : UserId) :
    Accounts g u (g.backEverywhere u).1 (g.backEverywhere u).2 := by
  unfold backEverywhere
  dsimp only
  split
  · next hany =>
    have hne : (g.recordsOf u).map (fun _ own => own.comeBack) ≠ ∅ := by
      intro he
      have hv := vals_map (g.recordsOf u) SessionPresence.comeBack
      rw [he, (vals_eq_nil _).mpr rfl] at hv
      rw [List.map_eq_nil_iff.mp hv.symm] at hany
      cases hany
    have ho :=
      remerge_presenceOrder (g.putRecords u ((g.recordsOf u).map fun _ own => own.comeBack))
      u ((g.recordsOf u).map fun _ own => own.comeBack)
    refine ⟨_, settles_remerge g u _ hne, ho.ge, ho.symm ▸ ?_⟩
    exact ⟨(h.stamps u).away.map _ (fun r hr => by rw [comeBack_isAway] at hr; cases hr),
      (h.stamps u).room.map _
        (fun r hr => ⟨by rwa [SessionPresence.inRoom, (comeBack_room r).1] at hr,
        (comeBack_room r).2⟩)⟩
  · exact accounts_unchanged h u

theorem accounts_connectionOpening {g : Gateway} (h : PresenceInv g) (u : UserId) (s : SessionId) :
    Accounts g u (g.connectionOpening u s).1 (g.connectionOpening u s).2 := by
  refine accounts_writeOwn g u s _ ?_
  cases hs : (g.recordsOf u)[s]? with
  | none =>
    exact (h.stamps u).insert_kept
      (fun ha => by simp [openRecord, SessionPresence.isAway, SessionPresence.arrived] at ha)
      (fun hr => by simp [openRecord, SessionPresence.inRoom, SessionPresence.arrived] at hr)
  | some own => exact (h.stamps u).insert_say hs rfl

theorem Accounts.of_onlyTells {g g' g'' : Gateway} {u : UserId} {m : Merged}
    (h : Accounts g u g' m) (ht : OnlyTells g' g'') : Accounts g u g'' m := by
  obtain ⟨rs, hs, ho, hst⟩ := h
  refine ⟨rs, ⟨fun v => ?_, fun h0 => ?_, fun v => ?_, hs.answer⟩, ?_, ?_⟩
  · rw [← hs.records v, recordsOf, recordsOf, ht.sessionPresence]
  · have := hs.nonempty h0
    rwa [NoneEmpty, ht.sessionPresence]
  · rw [ht.presence, hs.presence]
  · rwa [ht.presenceOrder]
  · rwa [ht.presenceOrder]

theorem accounts_connectionOpened {g : Gateway} (h : PresenceInv g) (u : UserId) (s : SessionId) :
    Accounts g u (g.connectionOpened u s) (g.connectionOpening u s).2 := by
  refine (accounts_connectionOpening h u s).of_onlyTells ?_
  unfold connectionOpened
  dsimp only
  split
  · exact onlyTells_tellPresence _ u
  · exact OnlyTells.refl _

theorem accounts_connectionClosed {g : Gateway} (h : PresenceInv g) (u : UserId) (s : SessionId) :
    Accounts g u (g.connectionClosed u s).1 (g.connectionClosed u s).2 := by
  unfold connectionClosed connectionClosing
  cases hs : (g.recordsOf u)[s]? with
  | none => exact accounts_unchanged h u
  | some own =>
    dsimp only
    split
    · exact accounts_kept (r := { own with sockets := own.sockets - 1 }) h hs rfl rfl rfl rfl
    · exact accounts_sessionGone h u s _

theorem accounts_connectionDropped {g : Gateway} (h : PresenceInv g) (u : UserId) (s : SessionId) :
    Accounts g u (g.connectionDropped u s).1 .same := by
  unfold connectionDropped
  cases hs : (g.recordsOf u)[s]? with
  | none => exact accounts_unchanged h u
  | some own =>
    dsimp only
    split
    · exact accounts_kept (r := { own with sockets := own.sockets - 1 }) h hs rfl rfl rfl rfl
    · exact accounts_kept
        (r := { own with sockets := own.sockets - 1, dropped := some (g.drops + 1) })
        h hs rfl rfl rfl rfl

/-- A record written twice over settles as if it had been written once. -/
theorem accounts_writeOwn_again {g : Gateway} {u : UserId} {s : SessionId}
    (kept own : SessionPresence)
    (hst : Stamps g.presenceOrder ((g.recordsOf u).insert s own)) :
    Accounts g u ((g.putRecords u ((g.recordsOf u).insert s kept)).writeOwn u s own).1
      ((g.putRecords u ((g.recordsOf u).insert s kept)).writeOwn u s own).2 := by
  have hs := (settles_writeOwn (g.putRecords u ((g.recordsOf u).insert s kept)) u s own).of_put
    (insert_ne_empty _ _ _)
  have he : ((g.putRecords u ((g.recordsOf u).insert s kept)).recordsOf u).insert s own =
      (g.recordsOf u).insert s own := by
    rw [recordsOf_putRecords, if_pos rfl]
    ext1 t
    simp only [insert_at]
    split <;> rfl
  rw [he] at hs
  have ho := writeOwn_presenceOrder (g.putRecords u ((g.recordsOf u).insert s kept)) u s own
  exact ⟨_, hs, ho.ge, ho.symm ▸ hst⟩

theorem accounts_graceOver {g : Gateway} (h : PresenceInv g) (u : UserId) (s : SessionId)
    (number : ℕ) : Accounts g u (g.graceOver u s number).1 (g.graceOver u s number).2 := by
  unfold graceOver graceEnding
  cases hs : (g.recordsOf u)[s]? with
  | none => exact accounts_unchanged h u
  | some own =>
    dsimp only
    split
    · exact accounts_unchanged h u
    · split
      · exact accounts_sessionGone h u s _
      · split
        · refine accounts_writeOwn_again _ _ ((h.stamps u).insert_kept ?_ ?_)
          · intro ha
            exact ⟨own, hs, speaksAgain_away { own with dropped := none } (of_decide_eq_true ha)⟩
          · exact fun hr => ⟨own, hs, speaksAgain_room { own with dropped := none } hr⟩
        · exact accounts_kept (r := { own with dropped := none }) h hs rfl rfl rfl rfl

/-- A call with an answer accounts for it; one without accounts for some answer. -/
theorem accounts_call {g : Gateway} (h : PresenceInv g) (c : PresenceCall) :
    ∃ m, Accounts g c.userId (g.call c).1 m ∧ ∀ m', (g.call c).2 = some m' → m' = m := by
  cases c with
  | connectionOpened u s => exact ⟨_, accounts_connectionOpened h u s, fun m' hm => by cases hm⟩
  | connectionClosed u s =>
    exact ⟨_, accounts_connectionClosed h u s, fun m' hm => (Option.some.inj hm).symm⟩
  | connectionDropped u s => exact ⟨_, accounts_connectionDropped h u s, fun m' hm => by cases hm⟩
  | graceOver u s number =>
    exact ⟨_, accounts_graceOver h u s number, fun m' hm => (Option.some.inj hm).symm⟩
  | updatePresence u s state awayMessage =>
    exact ⟨_, accounts_updatePresence h u s state awayMessage,
      fun m' hm => (Option.some.inj hm).symm⟩
  | moveTo u s roomId =>
    exact ⟨_, accounts_moveTo h u s roomId, fun m' hm => (Option.some.inj hm).symm⟩
  | backEverywhere u =>
    exact ⟨_, accounts_backEverywhere h u, fun m' hm => (Option.some.inj hm).symm⟩

theorem presenceInv_new (dms : FMap RoomId (List UserId)) :
    PresenceInv { Gateway.new with dmMembers := dms } := by
  have hr (u : UserId) : ({ Gateway.new with dmMembers := dms } : Gateway).recordsOf u = ∅ := by
    simp [recordsOf, Gateway.new]
  refine ⟨fun v vs hv => ?_, fun u => ?_, fun u => ?_⟩
  · simp [Gateway.new] at hv
  · rw [hr, (vals_eq_nil _).mpr rfl, merge_nil]
    simp [Gateway.new]
  · rw [hr]
    exact ⟨Stamped.empty, Stamped.empty⟩

theorem presenceInv_reachable {dms : FMap RoomId (List UserId)} {g : Gateway}
    (hg : (presenceMachine dms).Reachable g) : PresenceInv g := by
  refine (presenceMachine dms).invariant (presenceInv_new dms) ?_ hg
  rintro g c g' h ⟨⟩
  obtain ⟨m, ha, -⟩ := accounts_call h c
  exact h.of_accounts ha

/-- Somebody with no session has nothing a call could change, short of a socket opening. -/
theorem call_unheard {g : Gateway} {c : PresenceCall} (h : g.recordsOf c.userId = ∅) {m : Merged}
    (hm : (g.call c).2 = some m) : (g.call c).1 = g := by
  cases c with
  | connectionOpened u s => cases hm
  | connectionDropped u s => cases hm
  | connectionClosed u s =>
    simp [call, connectionClosed, connectionClosing, finish, show g.recordsOf u = ∅ from h]
  | graceOver u s number =>
    simp [call, graceOver, graceEnding, finish, show g.recordsOf u = ∅ from h]
  | updatePresence u s state awayMessage =>
    simp [call, updatePresence, show g.recordsOf u = ∅ from h]
  | moveTo u s roomId => simp [call, moveTo, show g.recordsOf u = ∅ from h]
  | backEverywhere u =>
    have hv : vals (g.recordsOf u) = [] := (vals_eq_nil _).mpr h
    simp [call, backEverywhere, hv]

/-- What everybody is told of a person, apart from who they are. -/
def saying (e : PresenceEntry) : PresenceState × Option RoomId × Option String :=
  (e.state, e.roomId, e.awayMessage)

/-- `m` is the change from what was told before a call to what is told after it. -/
structure Answers (before after : Option PresenceEntry) (m : Merged) : Prop where
  same : m = .same ↔
    after.map saying = before.map saying ∨ (before.isSome ∧ after = none)
  moved : m = .moved ↔
    after.isSome ∧ before.bind PresenceEntry.roomId ≠ after.bind PresenceEntry.roomId
  changed : m = .changed ↔ m ≠ .same ∧ m ≠ .moved

theorem answers_classify {u : UserId} {before after : Option PresenceEntry}
    (hb : ∀ e, before = some e → e.userId = u) (ha : ∀ e, after = some e → e.userId = u)
    (hnew : before = none → after = none) : Answers before after (classify before after) := by
  cases after with
  | none => cases before <;> exact ⟨by simp [classify], by simp [classify], by simp [classify]⟩
  | some now =>
    cases before with
    | none => cases hnew rfl
    | some was =>
      have hu : was.userId = now.userId := (hb was rfl).trans (ha now rfl).symm
      have he : was = now ↔ saying now = saying was := by
        cases was
        cases now
        simp only [saying, PresenceEntry.mk.injEq, Prod.mk.injEq] at hu ⊢
        grind
      by_cases h : was = now
      · subst h
        exact ⟨by simp [classify], by simp [classify], by simp [classify]⟩
      · have hs : ¬ saying now = saying was := fun hs => h (he.mpr hs)
        by_cases hr : was.roomId = now.roomId
        · exact ⟨by simp [classify, h, hr, hs], by simp [classify, h, hr], by simp [classify, h,
            hr]⟩
        · exact ⟨by simp [classify, h, hr, hs], by simp [classify, h, hr], by simp [classify, h,
            hr]⟩

/-- Whatever calls came before, everybody who has a session is told their
sessions merged, nobody else is told anything, and every answer is the change
the call made. -/
theorem presence_merges_sessions {dms : FMap RoomId (List UserId)} {g : Gateway}
    (hg : (presenceMachine dms).Reachable g) :
    (∀ u : UserId,
      ((g.presence[u]?).isSome ↔ ∃ (s : SessionId) (own : SessionPresence),
        (g.recordsOf u)[s]? = some own) ∧
      ∀ order, order.Perm (vals (g.recordsOf u)) → g.presence[u]? = merge u order) ∧
    ∀ (c : PresenceCall) (m : Merged), (g.call c).2 = some m →
      Answers (g.presence[c.userId]?) ((g.call c).1.presence[c.userId]?) m := by
  have h := presenceInv_reachable hg
  refine ⟨fun u => ⟨?_, fun order hp => ?_⟩, fun c m hm => ?_⟩
  · have hv (own : SessionPresence) := mem_vals (g.recordsOf u) own
    rw [h.merged u, Option.isSome_iff_ne_none, Ne, merge_eq_none, List.eq_nil_iff_forall_not_mem]
    simp only [hv, not_forall, not_not]
    exact exists_comm
  · rw [h.merged u, (h.stamps u).perm hp]
  · obtain ⟨m', ⟨rs, hs, -, -⟩, hm'⟩ := accounts_call h c
    have hafter := hs.presence c.userId
    rw [if_pos rfl] at hafter
    rw [hm' m hm, hs.answer, hafter]
    refine answers_classify (u := c.userId) (fun e he => ?_) (fun e he => merge_userId he)
      fun hnone => ?_
    · rw [h.merged] at he
      exact merge_userId he
    · have hempty : g.recordsOf c.userId = ∅ := by
        rw [h.merged, merge_eq_none, vals_eq_nil] at hnone
        exact hnone
      rw [← hafter, call_unheard hempty hm]
      exact hnone

def lunchCalls : List PresenceCall :=
  [.connectionOpened 1 10, .connectionOpened 1 11, .moveTo 1 10 (some 5),
    .updatePresence 1 11 .away (some "lunch")]

theorem presence_merges_sessions_lunch :
    ∃ g, (presenceMachine ∅).run lunchCalls = some g ∧
      g.presence[1]? = merge 1 (vals (g.recordsOf 1)) ∧
      g.presence[1]? = some ⟨1, .away, none, some "lunch"⟩ ∧
      Answers (g.presence[1]?) ((g.call (.backEverywhere 1)).1.presence[1]?) .moved := by
  have hg : (presenceMachine ∅).Reachable _ := ⟨lunchCalls, rfl⟩
  exact ⟨_, rfl, ((presence_merges_sessions hg).1 1).2 _ (List.Perm.refl _), by decide,
    (presence_merges_sessions hg).2 (.backEverywhere 1) .moved (by decide)⟩

end Gateway
end Linger
