import Linger.SessionTask

/-! Whatever the sockets and the app do, each socket holds a stretch of what the
session numbered, and the one the app keeps goes on where the app stands. -/
namespace Linger
open LogSlice StepMachine

/-- The numbered frames among what waits. -/
def framesOf (items : List Item) : List (ℕ × ServerEvent) :=
  items.filterMap fun item =>
    match item with
    | .control => none
    | .frame n event => some (n, event)

theorem framesOf_append (xs ys : List Item) :
    framesOf (xs ++ ys) = framesOf xs ++ framesOf ys := List.filterMap_append

theorem framesOf_frames (es : List (ℕ × ServerEvent)) :
    framesOf (es.map fun e => Item.frame e.1 e.2) = es := by
  rw [framesOf, List.filterMap_map]
  exact List.filterMap_some

namespace Session

/-- Socket `k` still holds what the session numbered above `lo` and up to `hi`. -/
structure Holds (s : Session) (k : ℕ) (socket : Socket) (lo hi : ℕ) : Prop where
  lo_le : lo ≤ hi
  hi_le : hi ≤ s.log.length
  frames : framesOf (socket.wire ++ socket.queue) = slice s.log lo hi
  current : s.current = some k → lo = s.got.length
  waiting : socket.attached = false → lo = socket.resumeFrom ∧ hi = socket.resumeFrom
  sink : s.sink = some k → hi = s.log.length
  replaying : ∀ rest, s.replaying = some (k, rest) →
    framesOf rest = slice s.log hi s.log.length

/-- A socket that the session replays to or is attached to is one it took. -/
def Took (s : Session) (k : ℕ) : Prop :=
  ∃ socket, s.sockets k = some socket ∧ socket.attached = true

structure SessionInv (s : Session) : Prop where
  seq : s.seq = s.log.length
  kept : s.kept.Keeps s.log
  taken : s.taken.map Prod.fst = s.bus.take s.taken.length
  numbered : s.log = s.taken.filterMap Prod.snd
  got_le : s.got.length ≤ s.log.length
  got : s.got = slice s.log 0 s.got.length
  sockets : ∀ k socket, s.sockets k = some socket → ∃ lo hi, Holds s k socket lo hi
  sink : ∀ k, s.sink = some k → s.Took k
  replaying : ∀ k rest, s.replaying = some (k, rest) → s.Took k

theorem last_eq {s : Session} (h : SessionInv s) : s.last = s.got.length := by
  have hnums : s.got.map Prod.fst = List.range' 1 s.got.length := by
    conv_lhs => rw [h.got]
    exact (slice_zero h.got_le).1
  rw [last, ← List.getLast?_map, hnums, List.getLast?_range']
  split
  · next h0 => rw [h0, Option.getD_none]
  · rw [Option.getD_some]
    omega

theorem Holds.congr {s s' : Session} {k lo hi : ℕ} {socket : Socket} (h : Holds s k socket lo hi)
    (hlog : s'.log = s.log) (hcur : s'.current = some k → s.current = some k ∧ s'.got = s.got)
    (hsink : s'.sink = some k → s.sink = some k)
    (hreplaying : ∀ rest, s'.replaying = some (k, rest) → s.replaying = some (k, rest)) :
    Holds s' k socket lo hi := by
  refine ⟨h.lo_le, hlog ▸ h.hi_le, hlog ▸ h.frames, fun hc => ?_, h.waiting, fun hs => ?_,
    fun rest hr => ?_⟩
  · obtain ⟨hc, hg⟩ := hcur hc
    rw [hg]
    exact h.current hc
  · rw [hlog]
    exact h.sink (hsink hs)
  · rw [hlog]
    exact h.replaying rest (hreplaying rest hr)

theorem put_sockets (s : Session) (k j : ℕ) (socket : Socket) :
    (s.put k socket).sockets j = if j = k then some socket else s.sockets j :=
  Function.update_apply s.sockets k (some socket) j

theorem Took.put {s : Session} {k j : ℕ} {socket : Socket} (h : s.Took j)
    (hk : s.Took k → socket.attached = true) : (s.put k socket).Took j := by
  by_cases hj : j = k
  · subst hj
    exact ⟨socket, (put_sockets s j j socket).trans (if_pos rfl), hk h⟩
  · obtain ⟨so, hso, ha⟩ := h
    exact ⟨so, (put_sockets s k j socket).trans ((if_neg hj).trans hso), ha⟩

/-- One socket changed, and nothing else of the session. -/
theorem SessionInv.put {s : Session} {k : ℕ} {old socket : Socket} (h : SessionInv s)
    (hold : s.sockets k = some old) (hatt : old.attached = true → socket.attached = true)
    (hk : ∀ lo hi, Holds s k old lo hi → ∃ lo' hi', Holds s k socket lo' hi') :
    SessionInv (s.put k socket) := by
  have htook (j : ℕ) (hj : s.Took j) : (s.put k socket).Took j := by
    refine hj.put fun ⟨so, hso, ha⟩ => ?_
    rw [hold] at hso
    cases hso
    exact hatt ha
  refine ⟨h.seq, h.kept, h.taken, h.numbered, h.got_le, h.got, fun j so hj => ?_,
    fun j hj => htook j (h.sink j hj), fun j rest hj => htook j (h.replaying j rest hj)⟩
  rw [put_sockets] at hj
  split at hj
  · next hjk =>
    subst hjk
    cases hj
    obtain ⟨lo, hi, hh⟩ := h.sockets j old hold
    obtain ⟨lo', hi', hh'⟩ := hk lo hi hh
    exact ⟨lo', hi', hh'.congr rfl (fun hc => ⟨hc, rfl⟩) id fun _ => id⟩
  · obtain ⟨lo, hi, hh⟩ := h.sockets j so hj
    exact ⟨lo, hi, hh.congr rfl (fun hc => ⟨hc, rfl⟩) id fun _ => id⟩

/-- What waits for a socket and has no number counts for nothing. -/
theorem Holds.same {s : Session} {k lo hi : ℕ} {old socket : Socket} (h : Holds s k old lo hi)
    (hframes : framesOf (socket.wire ++ socket.queue) = framesOf (old.wire ++ old.queue))
    (hatt : socket.attached = old.attached) (hfrom : socket.resumeFrom = old.resumeFrom) :
    Holds s k socket lo hi :=
  ⟨h.lo_le, h.hi_le, hframes.trans h.frames, h.current, by rw [hatt, hfrom]; exact h.waiting,
    h.sink, h.replaying⟩

theorem framesOf_push (socket : Socket) (item : Item) :
    framesOf ((socket.push item).wire ++ (socket.push item).queue) =
      framesOf (socket.wire ++ socket.queue) ++ framesOf [item] := by
  rw [Socket.push, ← List.append_assoc, framesOf_append]

theorem SessionInv.putControl {s : Session} {k : ℕ} {socket : Socket} (h : SessionInv s)
    (hk : s.sockets k = some socket) : SessionInv (s.put k (socket.push .control)) :=
  h.put hk id fun lo hi hh =>
    ⟨lo, hi, hh.same ((framesOf_push socket .control).trans (List.append_nil _)) rfl rfl⟩

/-- The session changed in nothing the sockets or the app's place depend on, or
let go of its sink or its replay. -/
theorem SessionInv.congr {s s' : Session} (h : SessionInv s) (hseq : s'.seq = s.seq)
    (hlog : s'.log = s.log) (hkept : s'.kept = s.kept) (htaken : s'.taken = s.taken)
    (hbus : s'.bus.take s.taken.length = s.bus.take s.taken.length) (hgot : s'.got = s.got)
    (hsockets : s'.sockets = s.sockets) (hcur : ∀ k, s'.current = some k → s.current = some k)
    (hsink : ∀ k, s'.sink = some k → s.sink = some k)
    (hreplaying : ∀ k rest, s'.replaying = some (k, rest) → s.replaying = some (k, rest)) :
    SessionInv s' := by
  refine ⟨by rw [hseq, hlog, h.seq], by rw [hkept, hlog]; exact h.kept,
    by rw [htaken, hbus, h.taken], by rw [hlog, htaken]; exact h.numbered,
    by rw [hgot, hlog]; exact h.got_le, by rw [hgot, hlog]; exact h.got, fun k socket hk => ?_,
    fun k hk => ?_, fun k rest hk => ?_⟩
  · rw [hsockets] at hk
    obtain ⟨lo, hi, hh⟩ := h.sockets k socket hk
    exact ⟨lo, hi, hh.congr hlog (fun hc => ⟨hcur k hc, hgot⟩) (hsink k) (hreplaying k)⟩
  · have := h.sink k (hsink k hk)
    rwa [Took, hsockets]
  · have := h.replaying k rest (hreplaying k rest hk)
    rwa [Took, hsockets]

theorem SessionInv.detached {s : Session} (h : SessionInv s) :
    SessionInv { s with sink := none, closer := none, detachedAt := some s.now } :=
  h.congr rfl rfl rfl rfl rfl rfl rfl (fun _ => id) nofun fun _ _ => id

theorem SessionInv.hangUp {s : Session} (h : SessionInv s) : SessionInv s.hangUp :=
  h.congr rfl rfl rfl rfl rfl rfl rfl (fun _ => id) (fun _ => id) fun _ _ => id

/-- The attached socket, when there is room in its queue. -/
theorem attachedSocket_eq_some {s : Session} {k : ℕ} {socket : Socket}
    (h : s.attachedSocket = some (k, socket)) :
    s.sink = some k ∧ s.sockets k = some socket := by
  simp only [attachedSocket, Option.bind_eq_some_iff, Option.ite_none_left_eq_some,
    Option.some.injEq, Prod.mk.injEq] at h
  obtain ⟨k', hk, so, hso, -, rfl, rfl⟩ := h
  exact ⟨hk, hso⟩

/-- One more event numbered and kept, and not sent to anybody yet. -/
def logged (s : Session) (f : Fanout) (event : ServerEvent) : Session :=
  { s with
    taken := s.taken ++ [(f, some event)]
    seq := s.seq + 1
    log := s.log ++ [event]
    kept := s.kept.keep (s.seq + 1) event s.now s.detachedAt.isNone }

theorem length_logged (s : Session) (f : Fanout) (event : ServerEvent) :
    (s.logged f event).log.length = s.log.length + 1 := List.length_append

theorem take_succ_of_getElem? {bus : List Fanout} {n : ℕ} {f : Fanout} (hf : bus[n]? = some f) :
    bus.take (n + 1) = bus.take n ++ [f] := by
  rw [List.take_add_one, hf]
  rfl

/-- Every socket holds what it held, a socket the session is attached to being
one short until it is sent the event. -/
theorem Holds.logged {s : Session} {k lo hi : ℕ} {socket : Socket} (h : Holds s k socket lo hi)
    (f : Fanout) (event : ServerEvent) (hreplaying : s.replaying = none) :
    Holds { s.logged f event with sink := none } k socket lo hi := by
  refine ⟨h.lo_le, ?_, ?_, h.current, h.waiting, nofun, fun rest hr => ?_⟩
  · show hi ≤ (s.logged f event).log.length
    rw [length_logged]
    exact h.hi_le.trans (Nat.le_succ _)
  · exact h.frames.trans (slice_grow h.hi_le [event]).symm
  · have hr : s.replaying = some (k, rest) := hr
    rw [hreplaying] at hr
    cases hr

theorem SessionInv.logged {s : Session} (h : SessionInv s) {f : Fanout} (event : ServerEvent)
    (hreplaying : s.replaying = none) (hf : s.bus[s.taken.length]? = some f) :
    SessionInv { s.logged f event with sink := none } := by
  have hlen := length_logged s f event
  refine ⟨?_, ?_, ?_, ?_, ?_, ?_, fun k socket hk => ?_, nofun, fun k rest hk => ?_⟩
  · show s.seq + 1 = (s.logged f event).log.length
    rw [hlen, h.seq]
  · show (s.kept.keep (s.seq + 1) event s.now s.detachedAt.isNone).Keeps (s.log ++ [event])
    rw [h.seq]
    exact h.kept.keep event s.now s.detachedAt.isNone
  · show (s.taken ++ [(f, some event)]).map Prod.fst =
      s.bus.take (s.taken ++ [(f, some event)]).length
    rw [List.map_append, h.taken, List.length_append]
    exact (take_succ_of_getElem? hf).symm
  · show s.log ++ [event] = (s.taken ++ [(f, some event)]).filterMap Prod.snd
    rw [List.filterMap_append, ← h.numbered]
    rfl
  · show s.got.length ≤ (s.logged f event).log.length
    rw [hlen]
    exact h.got_le.trans (Nat.le_succ _)
  · exact h.got.trans (slice_grow h.got_le [event]).symm
  · obtain ⟨lo, hi, hh⟩ := h.sockets k socket hk
    exact ⟨lo, hi, hh.logged f event hreplaying⟩
  · have hk : s.replaying = some (k, rest) := hk
    rw [hreplaying] at hk
    cases hk

/-- The attached socket, sent the event it was one short of, is not behind again. -/
theorem SessionInv.sends {s : Session} (h : SessionInv s) {k : ℕ} {socket : Socket}
    {f : Fanout} (event : ServerEvent) (hreplaying : s.replaying = none)
    (hf : s.bus[s.taken.length]? = some f) (hsink : s.sink = some k)
    (hk : s.sockets k = some socket) :
    SessionInv ((s.logged f event).put k (socket.push (.frame (s.seq + 1) event))) := by
  have hlogged := h.logged event hreplaying hf
  have hatt : socket.attached = true := by
    obtain ⟨so, hso, ha⟩ := h.sink k hsink
    rw [hk] at hso
    cases hso
    exact ha
  have hsockets (j : ℕ) :
      ((s.logged f event).put k (socket.push (.frame (s.seq + 1) event))).sockets
      j = if j = k then some (socket.push (.frame (s.seq + 1) event)) else s.sockets j :=
    put_sockets _ k j _
  refine ⟨hlogged.seq, hlogged.kept, hlogged.taken, hlogged.numbered, hlogged.got_le, hlogged.got,
    fun j so hj => ?_, fun j hj => ?_, fun j rest hj => ?_⟩
  -- The socket it is sent to stands one frame on; of the others nothing changes.
  · rw [hsockets] at hj
    split at hj
    · next hjk =>
      subst hjk
      cases hj
      obtain ⟨lo, hi, hh⟩ := h.sockets j socket hk
      have hhi := hh.sink hsink
      have hlo : lo ≤ s.log.length := hhi ▸ hh.lo_le
      refine ⟨lo, s.log.length + 1, hlo.trans (Nat.le_succ _), (length_logged s f event).ge, ?_,
        hh.current, fun hw => ?_, fun _ => (length_logged s f event).symm, fun rest hr => ?_⟩
      · refine (framesOf_push socket _).trans ?_
        rw [hh.frames, hhi, h.seq]
        exact (slice_snoc hlo event).symm
      · have hw : socket.attached = false := hw
        rw [hatt] at hw
        cases hw
      · have hr : s.replaying = some (j, rest) := hr
        rw [hreplaying] at hr
        cases hr
    · next hjk =>
      obtain ⟨lo, hi, hh⟩ := h.sockets j so hj
      refine ⟨lo, hi, (hh.logged f event hreplaying).congr rfl (fun hc => ⟨hc, rfl⟩) (fun hs => ?_)
        fun _ => id⟩
      exact absurd (Option.some.inj (hsink.symm.trans hs)).symm hjk
  · by_cases hjk : j = k
    · exact ⟨_, (hsockets j).trans (if_pos hjk), hatt⟩
    · exact absurd (Option.some.inj (hsink.symm.trans hj)).symm hjk
  · have hj : s.replaying = some (j, rest) := hj
    rw [hreplaying] at hj
    cases hj

theorem SessionInv.number {s : Session} (h : SessionInv s) {f : Fanout} (event : ServerEvent)
    (hreplaying : s.replaying = none) (hf : s.bus[s.taken.length]? = some f) :
    SessionInv ({ s with taken := s.taken ++ [(f, some event)] }.number event) := by
  have hlogged := h.logged event hreplaying hf
  unfold Session.number
  dsimp only
  split
  · next k socket hk =>
    obtain ⟨hsink, hso⟩ := attachedSocket_eq_some hk
    exact h.sends event hreplaying hf hsink hso
  · split
    · exact hlogged.congr rfl rfl rfl rfl rfl rfl rfl (fun _ => id) (fun _ => id) fun _ _ => id
    · next hs =>
      have hs : s.sink = none := by simpa using hs
      refine hlogged.congr rfl rfl rfl rfl rfl rfl rfl (fun _ => id) (fun k hk => ?_) fun _ _ => id
      have hk : s.sink = some k := hk
      rw [hs] at hk
      cases hk

theorem SessionInv.recv {s s' : Session} (h : SessionInv s) {userId : UserId}
    {sessionId : SessionId} {g : Gateway} {told : Option Told} (hreplaying : s.replaying = none)
    (hs : s.recv userId sessionId g told = some s') : SessionInv s' := by
  unfold Session.recv at hs
  split at hs
  · cases hs
  · next f hf =>
    split at hs
    · cases hs
      exact h.congr rfl rfl rfl rfl rfl rfl rfl (fun _ => id) (fun _ => id) fun _ _ => id
    · dsimp only at hs
      split at hs
      · next hj =>
        cases hs
        rw [hj]
        -- an event the session can't see is taken, and numbered by nobody
        refine ⟨h.seq, h.kept, ?_, ?_, h.got_le, h.got, fun k socket hk => ?_, h.sink,
          h.replaying⟩
        · show (s.taken ++ [(f, none)]).map Prod.fst =
            s.bus.take (s.taken ++ [(f, none)]).length
          rw [List.map_append, h.taken, List.length_append]
          exact (take_succ_of_getElem? hf).symm
        · show s.log = (s.taken ++ [(f, none)]).filterMap Prod.snd
          rw [List.filterMap_append, ← h.numbered]
          exact (List.append_nil _).symm
        · obtain ⟨lo, hi, hh⟩ := h.sockets k socket hk
          exact ⟨lo, hi, hh.congr rfl (fun hc => ⟨hc, rfl⟩) id fun _ => id⟩
      · next event hj =>
        cases hs
        rw [hj]
        exact h.number event hreplaying hf

/-- A socket is taken when what it missed can be replayed whole, all that was
numbered above where it resumes from. -/
theorem SessionInv.attach {s s' : Session} (h : SessionInv s) {k : ℕ}
    (hs : s.attach k = some s') : SessionInv s' := by
  -- A socket that waits stands where it resumes from.
  simp only [Session.attach, Option.bind_eq_some_iff, Option.ite_none_left_eq_some] at hs
  obtain ⟨socket, hk, hatt, hs⟩ := hs
  have hatt : socket.attached = false := by simpa using hatt
  obtain ⟨lo, hi, hh⟩ := h.sockets k socket hk
  obtain ⟨hlo, hhi⟩ := hh.waiting hatt
  have hfrom : socket.resumeFrom ≤ s.log.length := hhi ▸ hh.hi_le
  have hsink : s.sink ≠ some k := fun hsk => by
    obtain ⟨so, hso, ha⟩ := h.sink k hsk
    rw [hk] at hso
    cases hso
    rw [hatt] at ha
    cases ha
  have htaken : SessionInv (s.put k { socket with attached := true }) :=
    h.put hk (fun _ => rfl) fun lo hi hh =>
      ⟨lo, hi, hh.lo_le, hh.hi_le, hh.frames, hh.current, nofun, hh.sink, hh.replaying⟩
  -- What it missed was let go of: the session ends. Otherwise all of it is queued.
  split at hs
  · cases hs
    exact htaken.hangUp
  · next frames hafter =>
    cases hs
    have hframes : frames = slice s.log socket.resumeFrom s.log.length := by
      have h' := h.kept.after hfrom
      rw [show s.kept.after socket.resumeFrom = some frames from hafter] at h'
      split at h'
      · exact Option.some.inj h'
      · cases h'
    have hrest : framesOf ((if socket.isResume then [Item.control] else []) ++
        frames.map fun e => Item.frame e.1 e.2) = slice s.log socket.resumeFrom s.log.length := by
      rw [framesOf_append, framesOf_frames, hframes]
      split <;> rfl
    refine ⟨h.seq, h.kept, h.taken, h.numbered, h.got_le, h.got, fun j so hj => ?_, fun j hj => ?_,
      fun j rest hj => ?_⟩
    · have hj' := (put_sockets s k j { socket with attached := true }).symm.trans hj
      split at hj'
      · next hjk =>
        subst hjk
        cases hj'
        refine ⟨lo, hi, hh.lo_le, hh.hi_le, hh.frames, hh.current, nofun,
          fun hs => absurd hs hsink, fun rest hr => ?_⟩
        cases hr
        rw [hhi]
        exact hrest
      · next hjk =>
        obtain ⟨lo, hi, hh⟩ := h.sockets j so hj'
        refine ⟨lo, hi, hh.lo_le, hh.hi_le, hh.frames, hh.current, hh.waiting, hh.sink,
          fun rest hr => ?_⟩
        cases hr
        exact absurd rfl hjk
    · exact htaken.sink j hj
    · cases hj
      exact ⟨{ socket with attached := true }, (put_sockets s k k _).trans (if_pos rfl), rfl⟩

/-- One more frame of a replay is queued, where the socket stands. -/
theorem SessionInv.replays {s : Session} (h : SessionInv s) {k : ℕ} {socket : Socket} {item : Item}
    {rest : List Item} (hr : s.replaying = some (k, item :: rest))
    (hk : s.sockets k = some socket) :
    SessionInv ({ s with replaying := some (k, rest) }.put k (socket.push item)) := by
  have hatt : socket.attached = true := by
    obtain ⟨so, hso, ha⟩ := h.replaying k _ hr
    rw [hk] at hso
    cases hso
    exact ha
  have hsockets (j : ℕ) : ({ s with replaying := some (k, rest) }.put k (socket.push item)).sockets
      j = if j = k then some (socket.push item) else s.sockets j := put_sockets _ k j _
  have htook (j : ℕ) (hj : s.Took j) :
      ({ s with replaying := some (k, rest) }.put k (socket.push item)).Took j :=
    Took.put (s := { s with replaying := some (k, rest) }) hj fun _ => hatt
  refine ⟨h.seq, h.kept, h.taken, h.numbered, h.got_le, h.got, fun j so hj => ?_,
    fun j hj => htook j (h.sink j hj), fun j rest' hj => ?_⟩
  · rw [hsockets] at hj
    split at hj
    · next hjk =>
      subst hjk
      cases hj
      obtain ⟨lo, hi, hh⟩ := h.sockets j socket hk
      have hrest := hh.replaying _ hr
      cases item with
      | control =>
        refine ⟨lo, hi, hh.lo_le, hh.hi_le, ?_, hh.current, fun hw => ?_, hh.sink, fun r hr' => ?_⟩
        · rw [framesOf_push]
          exact (List.append_nil _).trans hh.frames
        · exact absurd (show socket.attached = false from hw) (by rw [hatt]; simp)
        · cases hr'
          exact hrest
      | frame n event =>
        -- the next frame of the replay is the one after the last queued
        obtain ⟨hlt, -, htail, hone⟩ := slice_cons le_rfl
          (show (n, event) :: framesOf rest = slice s.log hi s.log.length from hrest)
        refine ⟨lo, hi + 1, hh.lo_le.trans (Nat.le_succ _), hlt, ?_, hh.current, fun hw => ?_,
          fun hs => ?_, fun r hr' => ?_⟩
        · rw [framesOf_push, hh.frames]
          show _ ++ [(n, event)] = slice s.log lo (hi + 1)
          rw [hone]
          exact slice_append hh.lo_le (Nat.le_succ _) hlt
        · exact absurd (show socket.attached = false from hw) (by rw [hatt]; simp)
        · have := hh.sink hs
          omega
        · cases hr'
          exact htail
    · next hjk =>
      obtain ⟨lo, hi, hh⟩ := h.sockets j so hj
      refine ⟨lo, hi, hh.congr rfl (fun hc => ⟨hc, rfl⟩) id fun r hr' => ?_⟩
      cases hr'
      exact absurd rfl hjk
  · cases hj
    exact ⟨socket.push item, (hsockets k).trans (if_pos rfl), hatt⟩

theorem SessionInv.replay {s s' : Session} (h : SessionInv s) (hs : s.replay = some s') :
    SessionInv s' := by
  unfold Session.replay at hs
  obtain ⟨⟨k, items⟩, hr, hs⟩ := Option.bind_eq_some_iff.mp hs
  cases items with
  | nil =>
    cases hs
    refine ⟨h.seq, h.kept, h.taken, h.numbered, h.got_le, h.got, fun j so hj => ?_, fun j hj => ?_,
      nofun⟩
    · obtain ⟨lo, hi, hh⟩ := h.sockets j so hj
      refine ⟨lo, hi, hh.lo_le, hh.hi_le, hh.frames, hh.current, hh.waiting, fun hsk => ?_, nofun⟩
      -- nothing is left to replay, so the socket has all there is
      cases hsk
      have hrest := congrArg List.length (hh.replaying [] hr)
      rw [slice_length le_rfl] at hrest
      have hle := hh.hi_le
      have hrest : 0 = s.log.length - hi := hrest
      show hi = s.log.length
      omega
    · cases hj
      exact h.replaying k [] hr
  | cons item rest =>
    obtain ⟨socket, hk, hs⟩ := Option.bind_eq_some_iff.mp hs
    dsimp only at hk hs
    split at hs
    · cases item with
      | control =>
        cases hs
        refine ⟨h.seq, h.kept, h.taken, h.numbered, h.got_le, h.got, fun j so hj => ?_, h.sink,
          fun j rest' hj => ?_⟩
        · obtain ⟨lo, hi, hh⟩ := h.sockets j so hj
          refine ⟨lo, hi, hh.lo_le, hh.hi_le, hh.frames, hh.current, hh.waiting, hh.sink,
            fun r hr' => ?_⟩
          cases hr'
          exact hh.replaying (.control :: rest) hr
        · cases hj
          exact h.replaying k _ hr
      | frame n event =>
        cases hs
        exact h.congr rfl rfl rfl rfl rfl rfl rfl (fun _ => id) (fun _ => id) nofun
    · split at hs
      · cases hs
      · cases hs
        exact h.replays hr hk

/-- The app's next frame is the one after the last it has. -/
theorem SessionInv.receive {s s' : Session} (h : SessionInv s) (hs : s.receive = some s') :
    SessionInv s' := by
  unfold Session.receive at hs
  obtain ⟨k, hcur, hs⟩ := Option.bind_eq_some_iff.mp hs
  obtain ⟨socket, hk, hs⟩ := Option.bind_eq_some_iff.mp hs
  dsimp only at hs
  split at hs
  · cases hs
  · next item wire hwire =>
    have hsplit : framesOf (socket.wire ++ socket.queue) =
        framesOf [item] ++ framesOf (wire ++ socket.queue) := by
      rw [hwire, ← framesOf_append]
      rfl
    cases item with
    | control =>
      cases hs
      exact h.put hk id fun lo hi hh => ⟨lo, hi, hh.same (hsplit.symm ▸ rfl) rfl rfl⟩
    | frame n event =>
      cases hs
      obtain ⟨lo, hi, hh⟩ := h.sockets k socket hk
      have hlo := hh.current hcur
      obtain ⟨hlt, -, htail, hone⟩ := slice_cons hh.hi_le (hsplit.symm.trans hh.frames)
      -- What the app has is the log up to there, so this frame is the next of it.
      have hgot : s.got ++ [(n, event)] = slice s.log 0 (s.got.length + 1) := by
        have hle := hh.hi_le
        rw [hone, hlo, ← slice_append (Nat.zero_le _) (Nat.le_succ _) (by omega), ← h.got]
      have hlen : (s.got ++ [(n, event)]).length = s.got.length + 1 := List.length_append
      refine ⟨h.seq, h.kept, h.taken, h.numbered, ?_, ?_, fun j so hj => ?_, fun j hj => ?_,
        fun j rest hj => ?_⟩
      · show (s.got ++ [(n, event)]).length ≤ s.log.length
        have hle := hh.hi_le
        omega
      · show s.got ++ [(n, event)] = slice s.log 0 (s.got ++ [(n, event)]).length
        rw [hlen, hgot]
      · have hj' := (put_sockets s k j { socket with wire := wire }).symm.trans hj
        split at hj'
        · next hjk =>
          subst hjk
          cases hj'
          refine ⟨lo + 1, hi, hlt, hh.hi_le, htail, fun _ => ?_, fun hw => ?_, hh.sink,
            hh.replaying⟩
          · show lo + 1 = (s.got ++ [(n, event)]).length
            rw [hlen, hlo]
          · -- a socket the session hasn't taken holds no frame
            obtain ⟨h1, h2⟩ := hh.waiting hw
            omega
        · next hjk =>
          obtain ⟨lo, hi, hh⟩ := h.sockets j so hj'
          refine ⟨lo, hi, hh.lo_le, hh.hi_le, hh.frames, fun hc => ?_, hh.waiting, hh.sink,
            hh.replaying⟩
          exact absurd (Option.some.inj (hcur.symm.trans hc)).symm hjk
      -- Which sockets the session has taken does not change.
      · refine Took.put (h.sink j hj) fun ⟨so, hso, ha⟩ => ?_
        rw [hk] at hso
        cases hso
        exact ha
      · refine Took.put (h.replaying j rest hj) fun ⟨so, hso, ha⟩ => ?_
        rw [hk] at hso
        cases hso
        exact ha

/-- The app opens a socket to go on from where it stands. -/
theorem SessionInv.connect {s : Session} (h : SessionInv s) {k : ℕ} (hk : s.sockets k = none)
    (isResume : Bool) :
    SessionInv ({ s with current := some k, identified := true }.put k
      ⟨s.last, isResume, false, [], [], false⟩) := by
  have hlast := last_eq h
  have htook (j : ℕ) (hj : s.Took j) : j ≠ k := by
    rintro rfl
    obtain ⟨so, hso, -⟩ := hj
    rw [hk] at hso
    cases hso
  have hput (j : ℕ) (hj : s.Took j) : ({ s with current := some k, identified := true }.put k
      ⟨s.last, isResume, false, [], [], false⟩).Took j := by
    obtain ⟨so, hso, ha⟩ := hj
    exact ⟨so, (put_sockets _ k j _).trans ((if_neg (htook j ⟨so, hso, ha⟩)).trans hso), ha⟩
  refine ⟨h.seq, h.kept, h.taken, h.numbered, h.got_le, h.got, fun j so hj => ?_,
    fun j hj => hput j (h.sink j hj), fun j rest hj => hput j (h.replaying j rest hj)⟩
  rw [put_sockets] at hj
  split at hj
  · next hjk =>
    subst hjk
    cases hj
    refine ⟨s.last, s.last, le_rfl, ?_, (slice_self _ _).symm, fun _ => hlast, fun _ => ⟨rfl, rfl⟩,
      fun hs => ?_, fun rest hr => ?_⟩
    · rw [hlast]
      exact h.got_le
    · exact absurd rfl (htook j (h.sink j hs))
    · exact absurd rfl (htook j (h.replaying j rest hr))
  · next hjk =>
    obtain ⟨lo, hi, hh⟩ := h.sockets j so hj
    refine ⟨lo, hi, hh.lo_le, hh.hi_le, hh.frames, fun hc => ?_, hh.waiting, hh.sink,
      hh.replaying⟩
    exact absurd (Option.some.inj hc).symm hjk

theorem listens_eq_some {s s' : Session} {next : Option Session} (h : s.listens next = some s') :
    s.ended = false ∧ s.replaying = none ∧ next = some s' := by
  simp only [listens, Option.ite_none_left_eq_some, not_or, Bool.not_eq_true] at h
  exact ⟨h.1.1, by simpa using h.1.2, h.2⟩

theorem sessionInv_step {userId : UserId} {sessionId : SessionId} {s s' : Session} {a : Act}
    (h : SessionInv s) (hs : step userId sessionId s a = some s') : SessionInv s' := by
  cases a with
  | publish f =>
    cases hs
    -- What was taken is a prefix of the bus, so a frame more changes none of it.
    refine h.congr rfl rfl rfl rfl ?_ rfl rfl (fun _ => id) (fun _ => id) fun _ _ => id
    have hle : s.taken.length ≤ s.bus.length := by
      have := congrArg List.length h.taken
      rw [List.length_map, List.length_take] at this
      omega
    exact List.take_append_of_le_length hle
  | recv g told =>
    obtain ⟨-, hr, hs⟩ := listens_eq_some hs
    exact h.recv hr hs
  | attach k =>
    obtain ⟨-, -, hs⟩ := listens_eq_some hs
    exact h.attach hs
  | replay =>
    simp only [step, Option.ite_none_left_eq_some] at hs
    exact h.replay hs.2
  | detach k =>
    obtain ⟨-, -, hs⟩ := listens_eq_some hs
    cases hs
    unfold detach
    split
    · exact h.detached
    · exact h
  | close =>
    obtain ⟨-, -, hs⟩ := listens_eq_some hs
    unfold close at hs
    split at hs
    · cases hs
      exact h.hangUp
    · next k socket hk =>
      obtain ⟨k', -, hk⟩ := Option.bind_eq_some_iff.mp hk
      obtain ⟨so, hso, he⟩ := Option.map_eq_some_iff.mp hk
      cases he
      split at hs
      · cases hs
        exact h.hangUp
      · split at hs
        · cases hs
        · cases hs
          exact (h.putControl hso).hangUp
  | windowCloses =>
    obtain ⟨-, -, hs⟩ := listens_eq_some hs
    obtain ⟨since, -, hs⟩ := Option.bind_eq_some_iff.mp hs
    simp only [Option.ite_none_right_eq_some, Option.some.injEq] at hs
    obtain ⟨-, rfl⟩ := hs
    -- From here on nothing that was numbered changes.
    exact h.congr rfl rfl rfl rfl rfl rfl rfl (fun _ => id) (fun _ => id) fun _ _ => id
  | handlesGone =>
    obtain ⟨-, -, hs⟩ := listens_eq_some hs
    cases hs
    exact h.congr rfl rfl rfl rfl rfl rfl rfl (fun _ => id) (fun _ => id) fun _ _ => id
  | tick ms =>
    cases hs
    exact h.congr rfl rfl rfl rfl rfl rfl rfl (fun _ => id) (fun _ => id) fun _ _ => id
  | connect k =>
    simp only [step] at hs
    split at hs
    · cases hs
    · next hk =>
      cases hs
      exact h.connect hk s.identified
  | control k =>
    obtain ⟨socket, hk, hs⟩ := Option.bind_eq_some_iff.mp hs
    simp only [Option.ite_none_left_eq_some, Option.some.injEq] at hs
    obtain ⟨-, rfl⟩ := hs
    exact h.putControl hk
  | write k =>
    obtain ⟨socket, hk, hs⟩ := Option.bind_eq_some_iff.mp hs
    split at hs
    · cases hs
    · next item queue hq =>
      simp only [Option.ite_none_left_eq_some, Option.some.injEq] at hs
      obtain ⟨-, rfl⟩ := hs
      refine h.put hk id fun lo hi hh => ⟨lo, hi, hh.same ?_ rfl rfl⟩
      rw [hq, List.append_assoc]
      rfl
  | writerStops k =>
    obtain ⟨socket, hk, rfl⟩ := Option.map_eq_some_iff.mp hs
    exact h.put hk id fun lo hi hh => ⟨lo, hi, hh.same rfl rfl rfl⟩
  | receive => exact h.receive hs
  | lose =>
    cases hs
    exact h.congr rfl rfl rfl rfl rfl rfl rfl nofun (fun _ => id) fun _ _ => id

theorem sessionInv_spawn (most : ℕ) : SessionInv (spawn most) :=
  ⟨rfl, Replay.keeps_new most, rfl, rfl, le_rfl, rfl, nofun, nofun, nofun⟩

/-- What the app has received over all its sockets is everything the session
numbered from 1 on, each once and in order; a socket is taken exactly when
nothing above the number it resumes from was let go of; and a session that is
lapped, or can't replay a resume whole, ends there and sends nothing. -/
theorem resume_exactly_once {most : ℕ} {userId : UserId} {sessionId : SessionId} {s : Session}
    (hs : (machine most userId sessionId).Reachable s) :
    (s.got.map Prod.fst = List.range' 1 s.got.length ∧
      (∀ n event, (n, event) ∈ s.got → s.log[n - 1]? = some event) ∧
      s.log = s.taken.filterMap Prod.snd ∧ s.taken.map Prod.fst = s.bus.take s.taken.length) ∧
    (∀ k socket s', s.sockets k = some socket → step userId sessionId s (.attach k) = some s' →
      (s'.ended = false ↔ ∀ n, socket.resumeFrom < n → n ≤ s.seq → n ∈ s.kept.frames.map Prod.fst) ∧
      (s'.ended = true → s'.sockets = Function.update s.sockets k
        (some { socket with attached := true }))) ∧
    ∀ g told s', s.bus.length - s.taken.length > busFrames →
      step userId sessionId s (.recv g told) = some s' → s' = { s with ended := true } := by
  have h : SessionInv s := (machine most userId sessionId).invariant (sessionInv_spawn most)
    (fun _ _ _ h hs => sessionInv_step h hs) hs
  obtain ⟨hnums, hat⟩ := slice_zero h.got_le
  rw [← h.got] at hnums hat
  refine ⟨⟨hnums, hat, h.numbered, h.taken⟩, fun k socket s' hk hstep => ?_,
    fun g told s' hlap hstep => ?_⟩
  -- A socket is taken just when the log still has all it missed.
  · obtain ⟨hended, -, hstep⟩ := listens_eq_some hstep
    simp only [attach, Option.bind_eq_some_iff, Option.ite_none_left_eq_some] at hstep
    obtain ⟨so, hso, hatt, hstep⟩ := hstep
    rw [hk] at hso
    cases hso
    obtain ⟨lo, hi, hh⟩ := h.sockets k socket hk
    obtain ⟨-, hhi⟩ := hh.waiting (by simpa using hatt)
    have hfrom : socket.resumeFrom ≤ s.log.length := hhi ▸ hh.hi_le
    have hafter := h.kept.after hfrom
    rw [h.seq, ← h.kept.whole_iff]
    split at hstep
    · next hnone =>
      have hnone : s.kept.after socket.resumeFrom = none := hnone
      cases hstep
      rw [hnone] at hafter
      refine ⟨⟨nofun, fun hl => ?_⟩, fun _ => rfl⟩
      rw [if_pos hl] at hafter
      cases hafter
    · next frames hsome =>
      have hsome : s.kept.after socket.resumeFrom = some frames := hsome
      cases hstep
      rw [hsome] at hafter
      refine ⟨⟨fun _ => ?_, fun _ => hended⟩, fun he => ?_⟩
      · by_contra hl
        rw [if_neg hl] at hafter
        cases hafter
      · have he : s.ended = true := he
        rw [hended] at he
        cases he
  -- Lapped, the session ends.
  · obtain ⟨-, -, hstep⟩ := listens_eq_some hstep
    unfold recv at hstep
    split at hstep
    · cases hstep
    · rw [if_pos hlap] at hstep
      exact (Option.some.inj hstep).symm

def frameOfAll : Act := .publish (Fanout.new .emojiUpdate none none none)

/-- The app loses its socket with a frame on the wire, and resumes. -/
def lostAndResumed : List Act :=
  [.connect 0, .attach 0, .replay, frameOfAll, frameOfAll, .recv Gateway.new none,
    .recv Gateway.new none, .write 0, .write 0, .receive, .lose, frameOfAll, .detach 0,
    .recv Gateway.new none, .connect 1, .attach 1, .replay, .replay, .replay, .replay,
    .write 1, .write 1, .write 1, .receive, .receive, .receive]

theorem resume_exactly_once_lostAndResumed :
    ∃ s, (machine 5 1 10).run lostAndResumed = some s ∧
      s.got.map Prod.fst = [1, 2, 3] ∧ s.got.map Prod.fst = List.range' 1 s.got.length := by
  have hs : (machine 5 1 10).Reachable _ := ⟨lostAndResumed, rfl⟩
  exact ⟨_, rfl, by decide, (resume_exactly_once hs).1.1⟩

end Session
end Linger
