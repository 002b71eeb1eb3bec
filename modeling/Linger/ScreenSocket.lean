import Linger.ScreensPlaces

/-! Screen sockets and voice seats, each step of either on its own: a hello reads the
seat's room, the board takes the share or the watch in that room, and the seat is
looked for once more; a seat is removed, the board left, and another seat taken. -/
namespace Linger.Seats
open FiniteMap StepMachine Screens

def maxVoicePeers : ℕ := 60

structure VoiceSeat where
  roomId : RoomId
  userId : UserId
  deriving DecidableEq, Repr

/-- What a screen socket's hello asks for. -/
inductive Hello
  | share (fps : ℕ) (encode : List ScreenCodec) (sound : Bool)
  | watch (target : SessionId) (decode : List ScreenCodec) (sound : Bool)
  deriving DecidableEq, Repr

def Hello.part : Hello → Part
  | .share .. => .share
  | .watch .. => .watch

/-- How far a screen socket has come: its hello checked, on the board under a number,
found to have no seat once it was, or through. -/
inductive Stage
  | signed
  | placed (socket : ℕ)
  | unseated (socket : ℕ)
  | running (socket : ℕ)
  deriving DecidableEq, Repr

def Stage.isRunning : Stage → Bool
  | .running _ => true
  | _ => false

def Stage.socket : Stage → Option ℕ
  | .signed => none
  | .placed socket => some socket
  | .unseated socket => some socket
  | .running socket => some socket

/-- A hello that checked out: whose session, and the room of its seat. -/
structure Signed where
  sessionId : SessionId
  userId : UserId
  room : RoomId
  hello : Hello
  stage : Stage
  deriving DecidableEq, Repr

/-- What a call that moves a voice seat has still to do: leave the seat the session
has, leave the board (and then take a seat), or take it. -/
inductive Call
  | joins (session : SessionId) (userId : UserId) (room : RoomId)
  | leaves (session : SessionId) (next : Option (UserId × RoomId))
  | seats (session : SessionId) (userId : UserId) (room : RoomId)
  deriving DecidableEq, Repr

structure Server (β : Type) where
  board : Board β
  voice : FMap SessionId VoiceSeat
  sockets : FMap ℕ Signed
  calls : FMap ℕ Call

variable {β : Type}

/-- The room of a session's seat, when it has one and it is that person's. -/
def Server.screenSeat (st : Server β) (session : SessionId) (userId : UserId) : Option RoomId :=
  ((st.voice[session]?).filter fun seat => seat.userId = userId).map VoiceSeat.roomId

def Signed.stillSeated (signed : Signed) (st : Server β) : Bool :=
  (st.screenSeat signed.sessionId signed.userId).isSome

/-- The board takes a share or a watch in the room that was signed for. -/
def Signed.put (C : Ceiling β) (signed : Signed) (b : Board β) (now : ℕ) :
    Board β × Except Closing ℕ :=
  match signed.hello with
  | .share fps encode sound =>
    if (fps ≠ 30 ∧ fps ≠ 60) ∨ encode.isEmpty then (b, .error .badHello)
    else b.share C signed.sessionId signed.room encode sound now
  | .watch target decode sound =>
    if decode.isEmpty then (b, .error .badHello)
    else b.watch signed.sessionId signed.room target decode sound now

/-- A socket's share or watch is taken off the board again. -/
def Signed.takeOff (signed : Signed) (b : Board β) (socket now : ℕ) : Board β :=
  match signed.hello with
  | .share .. => (b.unshare signed.sessionId socket).1
  | .watch .. => (b.unwatch signed.sessionId socket now).1

def Server.voicePeers (st : Server β) (room : RoomId) : ℕ :=
  ((vals st.voice).filter fun seat => seat.roomId = room).length

/-- What sockets ask of the board once they are through. -/
def asked (C : Ceiling β) (b : Board β) : Act → Option (Board β)
  | .switch session socket target decode now =>
    some (b.switch session socket target decode now).1
  | .keyframe session socket now => some (b.keyframe session socket now)
  | .hear session socket on => some (b.hear session socket on)
  | .sound session socket packet now => some (b.soundAt C session socket packet now).1
  | .frame session socket frame now => some (b.frameAt C session socket frame now).1
  | .drain session d => some (b.drain session d)
  | _ => none

inductive Move
  | sign (k : ℕ) (session : SessionId) (userId : UserId) (hello : Hello)
  | put (k now : ℕ)
  | recheck (k : ℕ)
  | takeOff (k now : ℕ)
  | asks (a : Act)
  | voiceLeave (c : ℕ) (session : SessionId)
  | voiceJoin (c : ℕ) (session : SessionId) (userId : UserId) (room : RoomId) (canForward : Bool)
  | unseat (c : ℕ)
  | screensLeave (c now : ℕ)
  | insertSeat (c : ℕ)

/-- One step of one socket or of one call. -/
def step (C : Ceiling β) (st : Server β) : Move → Option (Server β)
  | .sign k session userId hello =>
    match st.sockets[k]?, st.screenSeat session userId with
    | some _, _ => none
    | none, none => some st
    | none, some room =>
      some { st with sockets := st.sockets.insert k ⟨session, userId, room, hello, .signed⟩ }
  | .put k now =>
    match (st.sockets[k]?).filter fun signed => signed.stage = .signed with
    | none => none
    | some signed =>
      match signed.put C st.board now with
      | (board, .ok socket) =>
        some { st with
          board := board, sockets := st.sockets.insert k { signed with stage := .placed socket } }
      | (board, .error _) => some { st with board := board, sockets := st.sockets.erase k }
  | .recheck k =>
    match st.sockets[k]? with
    | none => none
    | some signed =>
      match signed.stage with
      | .placed socket =>
        some { st with sockets := st.sockets.insert k { signed with
          stage := if signed.stillSeated st then .running socket else .unseated socket } }
      | _ => none
  | .takeOff k now =>
    match st.sockets[k]? with
    | none => none
    | some signed =>
      match signed.stage with
      | .unseated socket | .running socket =>
        some { st with
          board := signed.takeOff st.board socket now, sockets := st.sockets.erase k }
      | _ => none
  | .asks a => (asked C st.board a).map fun board => { st with board := board }
  | .voiceLeave c session =>
    match st.calls[c]?, st.voice[session]? with
    | some _, _ => none
    | none, none => some st
    | none, some _ =>
      some { st with
        voice := st.voice.erase session, calls := st.calls.insert c (.leaves session none) }
  | .voiceJoin c session userId room canForward =>
    if (st.calls[c]?).isSome then none
    else if !canForward then some st
    else if (st.voice[session]?).any fun seat => seat.roomId = room then some st
    else if st.voicePeers room ≥ maxVoicePeers then some st
    else some { st with calls := st.calls.insert c (.joins session userId room) }
  | .unseat c =>
    match st.calls[c]? with
    | some (.joins session userId room) =>
      match st.voice[session]? with
      | none => some { st with calls := st.calls.insert c (.seats session userId room) }
      | some _ =>
        some { st with
          voice := st.voice.erase session
          calls := st.calls.insert c (.leaves session (some (userId, room))) }
    | _ => none
  | .screensLeave c now =>
    match st.calls[c]? with
    | some (.leaves session next) =>
      some { st with
        board := (st.board.leave session now).1
        calls := match next with
          | none => st.calls.erase c
          | some (userId, room) => st.calls.insert c (.seats session userId room) }
    | _ => none
  | .insertSeat c =>
    match st.calls[c]? with
    | some (.seats session userId room) =>
      some { st with voice := st.voice.insert session ⟨room, userId⟩, calls := st.calls.erase c }
    | _ => none

def machine (C : Ceiling β) : Machine (Server β) Move := ⟨⟨Board.empty, ∅, ∅, ∅⟩, step C⟩

/-- Whom a call is still to take off the board. -/
def Call.off : Call → Option SessionId
  | .leaves session _ => some session
  | _ => none

def Server.Leaving (st : Server β) (session : SessionId) : Prop :=
  ∃ call ∈ vals st.calls, call.off = some session

/-- Whoever put a session on the board under a number has still to look for its seat,
or to take it off again. -/
def Server.Checking (st : Server β) (part : Part) (session : SessionId) (socket : ℕ) : Prop :=
  ∃ signed ∈ vals st.sockets, signed.hello.part = part ∧ signed.sessionId = session ∧
    (signed.stage = .placed socket ∨ signed.stage = .unseated socket)

/-- What is on the board belongs in a seat of its room, or is about to be taken off. -/
structure Inv (st : Server β) : Prop where
  numbers : ∀ (k : ℕ) (signed : Signed) (n : ℕ), st.sockets[k]? = some signed →
    signed.stage.socket = some n → n ≤ st.board.sockets
  rooms : ∀ (k : ℕ) (signed : Signed) (place : Place), st.sockets[k]? = some signed →
    st.board.place signed.hello.part signed.sessionId = some place →
    signed.stage.socket = some place.socket → place.room = signed.room
  seated : ∀ part session place, st.board.place part session = some place →
    (∃ seat, st.voice[session]? = some seat ∧ seat.roomId = place.room) ∨
      st.Leaving session ∨ st.Checking part session place.socket

variable {st st' : Server β} {C : Ceiling β}

theorem leaving_iff (st : Server β) (session : SessionId) :
    st.Leaving session ↔ ∃ (c : ℕ) (next : _), st.calls[c]? = some (.leaves session next) := by
  unfold Server.Leaving
  constructor
  · rintro ⟨call, hm, hoff⟩
    obtain ⟨c, hc⟩ := (mem_vals _ _).mp hm
    cases call with
    | leaves s next =>
      cases hoff
      exact ⟨c, next, hc⟩
    | joins | seats => cases hoff
  · rintro ⟨c, next, hc⟩
    exact ⟨_, (mem_vals _ _).mpr ⟨c, hc⟩, rfl⟩

/-- A call still to leave the board is one as long as nothing becomes of it. -/
theorem Server.Leaving.kept {session : SessionId} (h : st.Leaving session)
    (hk : ∀ (c : ℕ) (next : _), st.calls[c]? = some (.leaves session next) →
      st'.calls[c]? = some (.leaves session next)) : st'.Leaving session := by
  obtain ⟨c, next, hc⟩ := (leaving_iff st session).mp h
  exact (leaving_iff st' session).mpr ⟨c, next, hk c next hc⟩

theorem Server.Checking.kept {part : Part} {session : SessionId} {n : ℕ}
    (h : st.Checking part session n) (hk : ∀ (k : ℕ) (signed : Signed),
      st.sockets[k]? = some signed → signed.hello.part = part → signed.sessionId = session →
      (signed.stage = .placed n ∨ signed.stage = .unseated n) → st'.sockets[k]? = some signed) :
    st'.Checking part session n := by
  obtain ⟨signed, hm, hpart, hsession, hstage⟩ := h
  obtain ⟨k, hs⟩ := (mem_vals _ _).mp hm
  exact ⟨signed, (mem_vals _ _).mpr ⟨k, hk k signed hs hpart hsession hstage⟩, hpart, hsession,
    hstage⟩

theorem checking_of {k n : ℕ} {signed : Signed} {part : Part} {session : SessionId}
    (hs : st.sockets[k]? = some signed) (hpart : signed.hello.part = part)
    (hsession : signed.sessionId = session)
    (hstage : signed.stage = .placed n ∨ signed.stage = .unseated n) : st.Checking part session n :=
  ⟨signed, (mem_vals _ _).mpr ⟨k, hs⟩, hpart, hsession, hstage⟩

theorem put_refused (C : Ceiling β) {signed : Signed} {b : Board β} {now : ℕ} {why : Closing}
    (h : (signed.put C b now).2 = .error why) : (signed.put C b now).1 = b := by
  unfold Signed.put at h ⊢
  split at h
  · next hhello =>
    split at h
    · next hbad => rw [if_pos hbad]
    · next hgood =>
      rw [if_neg hgood]
      exact share_refused C h
  · next hhello =>
    split at h
    · next hbad => rw [if_pos hbad]
    · next hgood =>
      rw [if_neg hgood]
      exact watch_refused h

/-- A hello that the board takes is on it in the room it was signed for, under a
number no socket had. -/
theorem takes_put (C : Ceiling β) {signed : Signed} {b : Board β} {now socket : ℕ}
    (h : (signed.put C b now).2 = .ok socket) :
    Takes b signed.hello.part signed.sessionId signed.room socket (signed.put C b now).1 := by
  unfold Signed.put at h ⊢
  split at h
  · next hhello =>
    rw [hhello]
    split at h
    · cases h
    · next hgood =>
      rw [if_neg hgood]
      exact takes_share C h
  · next hhello =>
    rw [hhello]
    split at h
    · cases h
    · next hgood =>
      rw [if_neg hgood]
      exact takes_watch h

theorem frees_takeOff (signed : Signed) (b : Board β) (socket now : ℕ) :
    Frees b (fun part s place => part = signed.hello.part ∧ s = signed.sessionId ∧
      place.socket = socket) (signed.takeOff b socket now) := by
  unfold Signed.takeOff
  split
  · next hhello =>
    rw [hhello]
    exact frees_unshare b signed.sessionId socket
  · next hhello =>
    rw [hhello]
    exact frees_unwatch b signed.sessionId socket now

theorem stays_asked (C : Ceiling β) {b b' : Board β} {a : Act} (h : asked C b a = some b') :
    Stays b b' := by
  cases a with
  | switch session socket target decode now =>
    cases h
    exact stays_switch b session socket target decode now
  | keyframe session socket now =>
    cases h
    exact (alike_keyframe b session socket now).stays
  | hear session socket on =>
    cases h
    exact stays_hear b session socket on
  | sound session socket packet now =>
    cases h
    exact (alike_soundAt C b session socket packet now).stays
  | frame session socket frame now =>
    cases h
    exact (alike_frameAt C b session socket frame now).stays
  | drain session d =>
    cases h
    exact (alike_drain b session d).stays
  | share | unshare | watch | unwatch | leave | moves => cases h

/-- What calls do off the board leaves the screen sockets as they were. -/
theorem Inv.voice (h : Inv st) (hb : st'.board = st.board) (hs : st'.sockets = st.sockets)
    (hseated : ∀ part session place, st.board.place part session = some place →
      (∃ seat, st'.voice[session]? = some seat ∧ seat.roomId = place.room) ∨
        st'.Leaving session ∨ st.Checking part session place.socket) : Inv st' := by
  refine ⟨fun k signed n hk => ?_, fun k signed place hk => ?_, fun part session place hp => ?_⟩
  · rw [hs] at hk
    rw [hb]
    exact h.numbers k signed n hk
  · rw [hs] at hk
    rw [hb]
    exact h.rooms k signed place hk
  · rw [hb] at hp
    refine (hseated part session place hp).imp id (Or.imp id fun hc => ?_)
    exact hc.kept fun k signed hk _ _ _ => by rw [hs]; exact hk

/-- What the sockets do on the board moves nobody who stays on it. -/
theorem Inv.board (h : Inv st) {b' : Board β} {gone : Part → SessionId → Place → Prop}
    (hb : Frees st.board gone b') (hs : st'.board = b') (hsockets : st'.sockets = st.sockets)
    (hvoice : st'.voice = st.voice)
    (hleaving : ∀ part session place, st.board.place part session = some place →
      ¬gone part session place → st.Leaving session → st'.Leaving session) : Inv st' := by
  refine ⟨fun k signed n hk hn => ?_, fun k signed place hk hp => ?_,
    fun part session place hp => ?_⟩
  · rw [hsockets] at hk
    rw [hs]
    exact (h.numbers k signed n hk hn).trans hb.sockets
  · rw [hsockets] at hk
    rw [hs] at hp
    exact h.rooms k signed place hk ((hb.place _ _ _).mp hp).1
  · rw [hs] at hp
    obtain ⟨hp, hn⟩ := (hb.place part session place).mp hp
    rw [hvoice]
    refine (h.seated part session place hp).imp id (Or.imp (hleaving part session place hp hn)
      fun hc => ?_)
    exact hc.kept fun k signed hk _ _ _ => by rw [hsockets]; exact hk

/-- Each recheck that finds a seat finds it in the room that was signed for, or its
share or watch is off the board by then or about to be; and each seat that is taken
takes the place of none in another room, or nothing on the board stays behind there. -/
def Aligned (st : Server β) : Move → Prop
  | .recheck k => ∀ signed ∈ st.sockets[k]?,
    ∀ room ∈ st.screenSeat signed.sessionId signed.userId, room = signed.room ∨
      (∀ place ∈ st.board.place signed.hello.part signed.sessionId,
        signed.stage ≠ .placed place.socket) ∨
      st.Leaving signed.sessionId
  | .insertSeat c =>
    match st.calls[c]? with
    | some (.seats session _ room) => ∀ seat ∈ st.voice[session]?, seat.roomId = room ∨
      st.Leaving session ∨ ∀ part ∈ [Part.share, Part.watch],
        ∀ place ∈ st.board.place part session,
          place.room = room ∨ st.Checking part session place.socket
    | _ => True
  | _ => True

theorem erase_self_at {κ γ : Type} [Ord κ] [Std.TransOrd κ] [Std.LawfulEqOrd κ]
    [DecidableEq κ] (m : FMap κ γ) (k a : κ) (g : γ) (h : (m.erase k)[a]? = some g) :
    a ≠ k ∧ m[a]? = some g := by
  rw [erase_at] at h
  split at h
  · cases h
  · next hne => exact ⟨hne, h⟩

theorem inv_sign (h : Inv st) (k : ℕ) (session : SessionId) (userId : UserId) (hello : Hello)
    (hstep : step C st (.sign k session userId hello) = some st') : Inv st' := by
  simp only [step] at hstep
  split at hstep
  · cases hstep
  · cases hstep
    exact h
  · next room hk _ =>
    cases hstep
    have hne {j : ℕ} {signed : Signed} (hj : st.sockets[j]? = some signed) : j ≠ k := by
      rintro rfl
      rw [hk] at hj
      cases hj
    have hat (j : ℕ) := insert_at st.sockets k j ⟨session, userId, room, hello, .signed⟩
    refine ⟨fun j signed n hj hn => ?_, fun j signed place hj hp hn => ?_,
      fun part s place hp => ?_⟩
    · rw [hat] at hj
      split at hj
      · cases hj
        cases hn
      · exact h.numbers j signed n hj hn
    · rw [hat] at hj
      split at hj
      · cases hj
        cases hn
      · exact h.rooms j signed place hj hp hn
    · refine (h.seated part s place hp).imp id (Or.imp id fun hc => ?_)
      exact hc.kept fun j signed hj _ _ _ => by rw [hat, if_neg (hne hj)]; exact hj

theorem inv_put (h : Inv st) (k now : ℕ) (hstep : step C st (.put k now) = some st') : Inv st' := by
  simp only [step] at hstep
  split at hstep
  · cases hstep
  · next signed hk =>
    obtain ⟨hk, hsigned⟩ := Option.filter_eq_some_iff.mp hk
    have hsigned : signed.stage = .signed := by simpa using hsigned
    -- one that has only signed is not what anything on the board waits for
    have hother {j n : ℕ} {other : Signed} (hj : st.sockets[j]? = some other)
        (hstage : other.stage = .placed n ∨ other.stage = .unseated n) : j ≠ k := by
      rintro rfl
      rw [hk] at hj
      cases hj
      rw [hsigned] at hstage
      rcases hstage with hs | hs <;> cases hs
    split at hstep
    -- The board takes it: its place is the socket's, the others are as they were.
    · next board socket hput =>
      cases hstep
      have htakes : Takes st.board signed.hello.part signed.sessionId signed.room socket board := by
        have :=
          takes_put (b := st.board) C (by rw [hput] : (signed.put C st.board now).2 = .ok socket)
        rwa [hput] at this
      have hat (j : ℕ) := insert_at st.sockets k j { signed with stage := .placed socket }
      refine ⟨fun j other n hj hn => ?_, fun j other place hj hp hn => ?_,
        fun part s place hp => ?_⟩
      -- the numbers given out, then the places of those that were there
      · rw [hat] at hj
        split at hj
        · cases hj
          cases hn
          exact htakes.sockets
        · exact (h.numbers j other n hj hn).trans
            (Nat.le_of_lt (Nat.lt_of_lt_of_le htakes.unused htakes.sockets))
      · rw [hat] at hj
        split at hj
        · cases hj
          rw [htakes.place, if_pos ⟨rfl, rfl⟩] at hp
          cases hp
          rfl
        · rw [htakes.place] at hp
          split at hp
          · cases hp
            have := h.numbers j other socket hj hn
            have := htakes.unused
            omega
          · exact h.rooms j other place hj hp hn
      -- Who sits at a place is seated, leaves, or is being checked, as this one now is.
      · rw [htakes.place] at hp
        split at hp
        · next he =>
          cases hp
          obtain ⟨rfl, rfl⟩ := he
          refine .inr (.inr ?_)
          have hnew : ({ st with
              board := board
              sockets := st.sockets.insert k { signed with stage := .placed socket } } :
              Server β).sockets[k]? = some { signed with stage := .placed socket } := by
            show (st.sockets.insert k _)[k]? = _
            rw [hat, if_pos rfl]
          exact checking_of hnew rfl rfl (.inl rfl)
        · refine (h.seated part s place hp).imp id (Or.imp id fun hc => ?_)
          exact hc.kept fun j other hj _ _ hstage => by
            show (st.sockets.insert k _)[j]? = _
            rw [hat, if_neg (hother hj hstage)]
            exact hj
    -- It is refused, with the board as it was.
    · next board why hput =>
      cases hstep
      have hsame : board = st.board := by
        have :=
          put_refused (b := st.board) C (by rw [hput] : (signed.put C st.board now).2 = .error why)
        rwa [hput] at this
      subst hsame
      refine ⟨fun j other n hj => ?_, fun j other place hj => ?_, fun part s place hp => ?_⟩
      · exact h.numbers j other n (erase_self_at _ _ _ _ hj).2
      · exact h.rooms j other place (erase_self_at _ _ _ _ hj).2
      · refine (h.seated part s place hp).imp id (Or.imp id fun hc => ?_)
        exact hc.kept fun j other hj _ _ hstage => by
          show (st.sockets.erase k)[j]? = _
          rw [erase_at, if_neg (hother hj hstage)]
          exact hj

theorem inv_recheck (h : Inv st) (k : ℕ) (hok : Aligned st (.recheck k))
    (hstep : step C st (.recheck k) = some st') : Inv st' := by
  simp only [step] at hstep
  split at hstep
  · cases hstep
  · next signed hk =>
    split at hstep
    · next socket hstage =>
      cases hstep
      let stage : Stage := if signed.stillSeated st then .running socket else .unseated socket
      have hsocket : stage.socket = some socket := by
        simp only [stage]
        split <;> rfl
      have hat (j : ℕ) := insert_at st.sockets k j { signed with stage := stage }
      refine ⟨fun j other n hj hn => ?_, fun j other place hj hp hn => ?_,
        fun part s place hp => ?_⟩
      -- Its number stays; its stage only says whether it found the seat.
      · rw [hat] at hj
        split at hj
        · cases hj
          refine h.numbers k signed n hk ?_
          rw [hstage]
          exact hsocket.symm.trans hn
        · exact h.numbers j other n hj hn
      · rw [hat] at hj
        split at hj
        · cases hj
          refine h.rooms k signed place hk hp ?_
          rw [hstage]
          exact hsocket.symm.trans hn
        · exact h.rooms j other place hj hp hn
      -- The place that this socket has, or another.
      · by_cases hmine : part = signed.hello.part ∧ s = signed.sessionId ∧ place.socket = socket
        · obtain ⟨rfl, rfl, hn⟩ := hmine
          -- Still seated: in that room by the condition, or it has left the place, or is leaving.
          by_cases hseat : signed.stillSeated st = true
          · obtain ⟨room, hroom⟩ := Option.isSome_iff_exists.mp hseat
            rcases hok signed hk room hroom with he | hoff | hleaving
            · obtain ⟨seat, hfound, hr⟩ := Option.map_eq_some_iff.mp hroom
              have hplaced := h.rooms k signed place hk hp (by rw [hstage, hn]; rfl)
              refine .inl ⟨seat, (Option.filter_eq_some_iff.mp hfound).1, ?_⟩
              rw [hr, he, hplaced]
            · exact absurd (hn ▸ hstage) (hoff place hp)
            · exact .inr (.inl (hleaving.kept fun _ _ hc => hc))
          -- No seat: it is taken off next, which a place may wait for.
          · have hnew : (st.sockets.insert k { signed with stage := stage })[k]? =
                some { signed with stage := stage } := by rw [hat, if_pos rfl]
            refine .inr (.inr (checking_of hnew rfl rfl (.inr ?_)))
            rw [hn]
            exact if_neg hseat
        · refine (h.seated part s place hp).imp id (Or.imp id fun hc => ?_)
          refine hc.kept fun j other hj hpart hs hother => ?_
          have hne : j ≠ k := by
            rintro rfl
            rw [hk] at hj
            cases hj
            rw [hstage] at hother
            refine hmine ⟨hpart.symm, hs.symm, ?_⟩
            rcases hother with ho | ho
            · exact (Stage.placed.inj ho).symm
            · cases ho
          show (st.sockets.insert k _)[j]? = _
          rw [hat, if_neg hne]
          exact hj
    · cases hstep

theorem inv_takeOff (h : Inv st) (k now : ℕ) (hstep : step C st (.takeOff k now) = some st') :
    Inv st' := by
  have hoff (signed : Signed) (socket : ℕ) (hk : st.sockets[k]? = some signed)
      (hstage : signed.stage.socket = some socket) : Inv { st with
        board := signed.takeOff st.board socket now, sockets := st.sockets.erase k } := by
    have hfrees := frees_takeOff signed st.board socket now
    refine ⟨fun j other n hj hn => ?_, fun j other place hj hp => ?_, fun part s place hp => ?_⟩
    · exact (h.numbers j other n (erase_self_at _ _ _ _ hj).2 hn).trans hfrees.sockets
    · exact h.rooms j other place (erase_self_at _ _ _ _ hj).2 ((hfrees.place _ _ _).mp hp).1
    · obtain ⟨hp, hgone⟩ := (hfrees.place part s place).mp hp
      refine (h.seated part s place hp).imp id (Or.imp id fun hc => ?_)
      refine hc.kept fun j other hj hpart hs hother => ?_
      have hne : j ≠ k := by
        rintro rfl
        rw [hk] at hj
        cases hj
        refine hgone ⟨hpart.symm, hs.symm, ?_⟩
        rcases hother with ho | ho
        · rw [ho] at hstage
          exact Option.some.inj hstage
        · rw [ho] at hstage
          exact Option.some.inj hstage
      show (st.sockets.erase k)[j]? = _
      rw [erase_at, if_neg hne]
      exact hj
  simp only [step] at hstep
  split at hstep
  · cases hstep
  · next signed hk =>
    split at hstep
    · next socket hstage =>
      cases hstep
      exact hoff signed socket hk (by rw [hstage]; rfl)
    · next socket hstage =>
      cases hstep
      exact hoff signed socket hk (by rw [hstage]; rfl)
    · cases hstep

/-- A seat that is given up is followed by leaving the board, which is still to come. -/
theorem inv_eraseSeat (h : Inv st) {c : ℕ} {session : SessionId} (next : Option (UserId × RoomId))
    (hc : ∀ s next, st.calls[c]? ≠ some (.leaves s next)) :
    Inv { st with
      voice := st.voice.erase session, calls := st.calls.insert c (.leaves session next) } := by
  refine h.voice rfl rfl fun part s place hp => ?_
  by_cases hs : s = session
  · subst hs
    refine .inr (.inl ((leaving_iff _ s).mpr ⟨c, next, ?_⟩))
    exact (insert_at _ _ _ _).trans (if_pos rfl)
  · rcases h.seated part s place hp with ⟨seat, hseat, hr⟩ | hleaving | hchecking
    · exact .inl ⟨seat, (erase_at _ _ _).trans ((if_neg hs).trans hseat), hr⟩
    · refine .inr (.inl (hleaving.kept fun d next hd => ?_))
      have hne : d ≠ c := by
        rintro rfl
        exact hc s next hd
      exact (insert_at _ _ _ _).trans ((if_neg hne).trans hd)
    · exact .inr (.inr hchecking)

/-- A call that has not to leave the board goes on without it. -/
theorem inv_insertCall (h : Inv st) {c : ℕ} (call : Call)
    (hc : ∀ s next, st.calls[c]? ≠ some (.leaves s next)) :
    Inv { st with calls := st.calls.insert c call } := by
  refine h.voice rfl rfl fun part s place hp => ?_
  refine (h.seated part s place hp).imp id (Or.imp (fun hleaving => ?_) id)
  refine hleaving.kept fun d next hd => ?_
  have hne : d ≠ c := by
    rintro rfl
    exact hc s next hd
  exact (insert_at _ _ _ _).trans ((if_neg hne).trans hd)

theorem inv_voiceLeave (h : Inv st) (c : ℕ) (session : SessionId)
    (hstep : step C st (.voiceLeave c session) = some st') : Inv st' := by
  simp only [step] at hstep
  split at hstep
  · cases hstep
  · cases hstep
    exact h
  · next hc _ =>
    cases hstep
    exact inv_eraseSeat h none fun s next he => by rw [hc] at he; cases he

theorem inv_voiceJoin (h : Inv st) (c : ℕ) (session : SessionId) (userId : UserId) (room : RoomId)
    (canForward : Bool)
    (hstep : step C st (.voiceJoin c session userId room canForward) = some st') :
    Inv st' := by
  simp only [step] at hstep
  split at hstep
  · cases hstep
  next hc =>
  split at hstep
  · cases hstep
    exact h
  split at hstep
  · cases hstep
    exact h
  split at hstep
  · cases hstep
    exact h
  · cases hstep
    refine inv_insertCall h _ fun s next he => hc ?_
    rw [he]
    rfl

theorem inv_unseat (h : Inv st) (c : ℕ) (hstep : step C st (.unseat c) = some st') : Inv st' := by
  simp only [step] at hstep
  split at hstep
  · next session userId room hc =>
    have hnot : ∀ s next, st.calls[c]? ≠ some (.leaves s next) := fun s next he => by
      rw [hc] at he
      cases he
    split at hstep
    · cases hstep
      exact inv_insertCall h _ hnot
    · cases hstep
      exact inv_eraseSeat h _ hnot
  · cases hstep

theorem inv_screensLeave (h : Inv st) (c now : ℕ)
    (hstep : step C st (.screensLeave c now) = some st') : Inv st' := by
  simp only [step] at hstep
  split at hstep
  · next session next hc =>
    cases hstep
    refine h.board (frees_leave st.board session now) rfl rfl rfl fun part s place _ hs hleaving =>
      ?_
    refine hleaving.kept fun d next' hd => ?_
    have hne : d ≠ c := by
      rintro rfl
      rw [hc] at hd
      cases hd
      exact hs rfl
    cases next with
    | none => exact (erase_at _ _ _).trans ((if_neg hne).trans hd)
    | some seat => exact (insert_at _ _ _ _).trans ((if_neg hne).trans hd)
  · cases hstep

theorem inv_insertSeat (h : Inv st) (c : ℕ) (hok : Aligned st (.insertSeat c))
    (hstep : step C st (.insertSeat c) = some st') : Inv st' := by
  simp only [step] at hstep
  simp only [Aligned] at hok
  split at hstep
  · next session userId room hc =>
    cases hstep
    rw [hc] at hok
    have hkept (s : SessionId) (hleaving : st.Leaving s) : Server.Leaving { st with
        voice := st.voice.insert session ⟨room, userId⟩, calls := st.calls.erase c } s := by
      refine hleaving.kept fun d next hd => ?_
      have hne : d ≠ c := by
        rintro rfl
        rw [hc] at hd
        cases hd
      exact (erase_at _ _ _).trans ((if_neg hne).trans hd)
    refine h.voice rfl rfl fun part s place hp => ?_
    by_cases hs : s = session
    · subst hs
      have hseat : (st.voice.insert s ⟨room, userId⟩)[s]? = some ⟨room, userId⟩ :=
        (insert_at _ _ _ _).trans (if_pos rfl)
      rcases h.seated part s place hp with ⟨seat, hold, hr⟩ | hleaving | hchecking
      · rcases hok seat hold with he | hleaving | hall
        · exact .inl ⟨_, hseat, he.symm.trans hr⟩
        · exact .inr (.inl (hkept s hleaving))
        · have hpart : part ∈ [Part.share, Part.watch] := by cases part <;> simp
          rcases hall part hpart place hp with he | hchecking
          · exact .inl ⟨_, hseat, he.symm⟩
          · exact .inr (.inr hchecking)
      · exact .inr (.inl (hkept s hleaving))
      · exact .inr (.inr hchecking)
    · rcases h.seated part s place hp with ⟨seat, hold, hr⟩ | hleaving | hchecking
      · exact .inl ⟨seat, (insert_at _ _ _ _).trans ((if_neg hs).trans hold), hr⟩
      · exact .inr (.inl (hkept s hleaving))
      · exact .inr (.inr hchecking)
  · cases hstep

theorem inv_step {m : Move} (h : Inv st) (hok : Aligned st m) (hstep : step C st m = some st') :
    Inv st' := by
  cases m with
  | sign k session userId hello => exact inv_sign h k session userId hello hstep
  | put k now => exact inv_put h k now hstep
  | recheck k => exact inv_recheck h k hok hstep
  | takeOff k now => exact inv_takeOff h k now hstep
  | asks a =>
    obtain ⟨board, ha, rfl⟩ := Option.map_eq_some_iff.mp hstep
    exact h.board (stays_asked C ha).frees rfl rfl rfl fun _ _ _ _ _ hl => hl.kept fun _ _ hc => hc
  | voiceLeave c session => exact inv_voiceLeave h c session hstep
  | voiceJoin c session userId room canForward =>
    exact inv_voiceJoin h c session userId room canForward hstep
  | unseat c => exact inv_unseat h c hstep
  | screensLeave c now => exact inv_screensLeave h c now hstep
  | insertSeat c => exact inv_insertSeat h c hok hstep

theorem inv_start : Inv (machine C).start := by
  refine ⟨fun k signed n hk => ?_, fun k signed place hk => ?_, fun part session place hp => ?_⟩
  · cases Std.ExtTreeMap.getElem?_empty.symm.trans hk
  · cases Std.ExtTreeMap.getElem?_empty.symm.trans hk
  · cases part with
    | share =>
      have hp : ((∅ : FMap SessionId (Share β))[session]?).map Share.place = some place := hp
      rw [Std.ExtTreeMap.getElem?_empty] at hp
      cases hp
    | watch =>
      have hp :
          ((∅ : FMap SessionId Screens.Watch)[session]?).map Screens.Watch.place = some place := hp
      rw [Std.ExtTreeMap.getElem?_empty] at hp
      cases hp

/-- No hello is between its check and its recheck, no call has a step left. -/
structure Server.AtRest (st : Server β) : Prop where
  sockets : ∀ signed ∈ vals st.sockets, signed.stage.isRunning = true
  calls : st.calls = ∅

/-- Each share and each watch belongs to a session with a seat in its room. -/
structure Server.InSeats (st : Server β) : Prop where
  shares : ∀ (session : SessionId) (share : Share β), st.board.shares[session]? = some share →
    ∃ seat, st.voice[session]? = some seat ∧ seat.roomId = share.room
  watches : ∀ (session : SessionId) (w : Screens.Watch), st.board.watches[session]? = some w →
    ∃ seat, st.voice[session]? = some seat ∧ seat.roomId = w.room

theorem Inv.inSeats (h : Inv st) (hrest : st.AtRest) : st.InSeats := by
  have hseated (part : Part) (session : SessionId) (place : Place)
      (hp : st.board.place part session = some place) :
      ∃ seat, st.voice[session]? = some seat ∧ seat.roomId = place.room := by
    rcases h.seated part session place hp with hseat | hleaving | hchecking
    · exact hseat
    · obtain ⟨c, next, hc⟩ := (leaving_iff st session).mp hleaving
      rw [hrest.calls] at hc
      cases Std.ExtTreeMap.getElem?_empty.symm.trans hc
    · obtain ⟨signed, hm, -, -, hstage⟩ := hchecking
      have hrunning := hrest.sockets signed hm
      rcases hstage with hs | hs
      · rw [hs] at hrunning
        cases hrunning
      · rw [hs] at hrunning
        cases hrunning
  refine ⟨fun session share hs => ?_, fun session w hw => ?_⟩
  · exact hseated .share session share.place (congrArg (Option.map Share.place) hs)
  · exact hseated .watch session w.place (congrArg (Option.map Screens.Watch.place) hw)

/-- Once nothing is in flight, everything on the board is inside its seat, in every
run whose rechecks and seats line up. -/
theorem board_in_seats (C : Ceiling β) {moves : List Move} {st : Server β}
    (hmeets : (machine C).Meets Aligned moves) (hrun : (machine C).run moves = some st)
    (hrest : st.AtRest) : st.InSeats :=
  Inv.inSeats ((machine C).invariant_of_meets inv_start
    (fun _ _ _ h hok hl => inv_step h hok hl) hmeets hrun) hrest

instance decidableLeaving (st : Server β) (session : SessionId) :
    Decidable (st.Leaving session) := by
  unfold Server.Leaving
  infer_instance

instance decidableChecking (st : Server β) (part : Part) (session : SessionId) (socket : ℕ) :
    Decidable (st.Checking part session socket) := by
  unfold Server.Checking
  infer_instance

instance decidableAligned (st : Server β) (m : Move) : Decidable (Aligned st m) := by
  cases m <;> unfold Aligned <;> dsimp only <;> (try split) <;> infer_instance

/-- Somebody sits down in a room, and says hello to share there. -/
def sharesSeated : List Move :=
  [.voiceJoin 0 1 1 5 true, .unseat 0, .insertSeat 0, .sign 0 1 1 (.share 30 [.vp8] false)]

/-- They leave voice between the hello's check and the board. -/
theorem board_in_seats_leavesFirst :
    ∃ st, (machine bucket).run (sharesSeated ++ [.voiceLeave 1 1, .screensLeave 1 0, .put 0 0,
        .recheck 0, .takeOff 0 0]) = some st ∧ st.AtRest ∧ st.InSeats := by
  have hok : (machine bucket).Meets Aligned (sharesSeated ++ [.voiceLeave 1 1, .screensLeave 1 0,
      .put 0 0, .recheck 0, .takeOff 0 0]) := by decide
  have hruns : ∃ st, (machine bucket).run (sharesSeated ++ [.voiceLeave 1 1, .screensLeave 1 0,
      .put 0 0, .recheck 0, .takeOff 0 0]) = some st ∧ st.AtRest := ⟨_, rfl, ⟨by decide, rfl⟩⟩
  obtain ⟨st, hr, hrest⟩ := hruns
  exact ⟨st, hr, hrest, board_in_seats bucket hok hr hrest⟩

/-- They move to another room between the two: the recheck finds a seat, and the
share stays on in the room they left. -/
theorem movesFirst_leaves_share :
    ∃ st, (machine bucket).run (sharesSeated ++ [.voiceJoin 1 1 1 6 true, .unseat 1,
        .screensLeave 1 0, .insertSeat 1, .put 0 0, .recheck 0]) = some st ∧ st.AtRest ∧
      ¬st.InSeats := by
  have hends : ∃ st, (machine bucket).run (sharesSeated ++ [.voiceJoin 1 1 1 6 true, .unseat 1,
      .screensLeave 1 0, .insertSeat 1, .put 0 0, .recheck 0]) = some st ∧ st.AtRest ∧
      st.voice[1]? = some ⟨6, 1⟩ ∧ (st.board.shares[1]?).map Share.room = some 5 := by
    exact ⟨_, rfl, ⟨by decide, rfl⟩, rfl, rfl⟩
  obtain ⟨st, hr, hrest, hvoice, hshare⟩ := hends
  refine ⟨st, hr, hrest, fun h => ?_⟩
  obtain ⟨share, hs, hroom⟩ := Option.map_eq_some_iff.mp hshare
  obtain ⟨seat, hseat, he⟩ := h.shares 1 share hs
  rw [hvoice] at hseat
  cases hseat
  rw [hroom] at he
  cases he

end Linger.Seats
