import Linger.StepMachine
import Linger.SfuClient

/-! The forwarding server's clients as people join, answer and leave: whom each passes
on to whom is the room's list, in the order they joined. -/
namespace Linger.Sfu
open StepMachine

/-- What everybody in a room of up to twenty sends their voice at. -/
def smallRoomBits : ℕ := 128000

/-- What everybody in a bigger room sends at. -/
def bigRoomBits : ℕ := 96000

/-- The size at which a room steps down to `bigRoomBits`. -/
def bigRoom : ℕ := 21

/-- The size at which a room that stepped down steps back up. -/
def smallAgain : ℕ := 16

/-- What a room of `people` sends voice at, given what it sent at before. -/
def bitsFor (people before : ℕ) : ℕ :=
  if people ≥ bigRoom then bigRoomBits
  else if people ≤ smallAgain then smallRoomBits
  else before

/-- `usable` is whether its address can be offered, and `sizes` each size a room came to
have, in order. -/
structure Hub where
  clients : List Client
  usable : Bool
  sizes : List (RoomId × ℕ)
  deriving DecidableEq, Repr

inductive Command
  | join (session : SessionId) (room : RoomId)
  | answer (session : SessionId) (answer : Answer)
  | leave (session : SessionId)
  deriving DecidableEq, Repr

/-- What `str0m` names the m-lines it adds for each client, by the attempt and by their
order in it. -/
abbrev Draws := SessionId → ℕ → ℕ → Mid

/-- A command, with what is drawn as a session goes and what is drawn as it comes or
answers. A connection that ended on its own is a `leave`. -/
structure Act where
  command : Command
  going : Draws
  coming : Draws

/-- `origin`'s voice is to be offered next. -/
def Client.wants (c : Client) (origin : SessionId) : Client :=
  { c with outs := c.outs ++ [⟨origin, .toOpen⟩] }

/-- A client as it joins a room with `others` in it. -/
def Client.new (session : SessionId) (room : RoomId) (others : List SessionId) (bits : ℕ) :
    Client :=
  { session := session, room := room, rtc := ⟨[]⟩, mic := none, pending := none
    outs := others.map fun s => ⟨s, .toOpen⟩
    bits := bits, offers := [], answered := 0 }

namespace Hub

def there (hub : Hub) (room : RoomId) : List Client :=
  hub.clients.filter fun c => c.room = room

/-- What a room sends voice at now. -/
def before (hub : Hub) (room : RoomId) : ℕ :=
  ((hub.there room).head?).elim smallRoomBits Client.bits

/-- Settle what `room` sends voice at now that it holds `extra` more than the clients
in it, and set it on each of them. -/
def resize (hub : Hub) (room : RoomId) (extra : ℕ) : Hub × ℕ :=
  let people := (hub.there room).length + extra
  let bits := bitsFor people (hub.before room)
  ({ hub with
      clients := hub.clients.map fun c => if c.room = room then { c with bits := bits } else c
      sizes := hub.sizes ++ [(room, people)] }, bits)

/-- The clients left once a session's is taken out. -/
def without (hub : Hub) (session : SessionId) : Hub :=
  { hub with clients := hub.clients.eraseP fun c => c.session = session }

/-- Everybody else in the room stops passing `session` on. -/
def remove (hub : Hub) (session : SessionId) (draw : Draws) : Hub :=
  match hub.clients.find? fun c => c.session = session with
  | none => hub
  | some gone =>
    let (sized, _) := (hub.without session).resize gone.room 0
    { sized with
      clients := sized.clients.map fun c =>
        if c.room = gone.room then (c.forget session).negotiate (draw c.session) else c }

/-- Everybody in the room is to pass `session` on, and `session` them. -/
def enter (hub : Hub) (session : SessionId) (room : RoomId) (draw : Draws) : Hub :=
  let (sized, bits) := hub.resize room 1
  let client := Client.new session room ((sized.there room).map Client.session) bits
  { sized with
    clients := (sized.clients.map fun c =>
      if c.room = room then
        (c.wants session).negotiate (draw c.session)
      else c) ++ [client.negotiate (draw session)] }

def join (hub : Hub) (session : SessionId) (room : RoomId) (going coming : Draws) : Hub :=
  let left := hub.remove session going
  if left.usable then left.enter session room coming else left

def answer (hub : Hub) (session : SessionId) (answer : Answer) (draw : Draws) : Hub :=
  { hub with
    clients := hub.clients.replaceF fun c =>
      if c.session = session then
        match c.accept answer with
        | (c, .ok ()) => some (c.negotiate (draw session))
        | (c, .error _) => some c
      else none }

end Hub

def step (hub : Hub) (act : Act) : Hub :=
  match act.command with
  | .join session room => hub.join session room act.going act.coming
  | .answer session answer => hub.answer session answer act.coming
  | .leave session => hub.remove session act.going

def machine (usable : Bool) : Machine Hub Act :=
  ⟨⟨[], usable, []⟩, fun hub act => some (step hub act)⟩

/-- A client whose room is one person fewer. -/
def Client.loses (c : Client) (session : SessionId) (bits : ℕ) (draw : ℕ → ℕ → Mid) : Client :=
  (({ c with bits := bits } : Client).forget session).negotiate draw

/-- A client whose room is one person more. -/
def Client.gains (c : Client) (session : SessionId) (bits : ℕ) (draw : ℕ → ℕ → Mid) : Client :=
  (({ c with bits := bits } : Client).wants session).negotiate draw

namespace Hub
variable {hub : Hub} {session : SessionId} {room : RoomId} {draw : Draws} {c : Client}

/-- Everybody's session and room, in the order they joined. -/
def roster (hub : Hub) : List (SessionId × RoomId) := hub.clients.map fun c => (c.session, c.room)

theorem mem_roster (h : c ∈ hub.clients) : (c.session, c.room) ∈ hub.roster :=
  List.mem_map_of_mem h

section Remove
variable {gone : Client}

theorem remove_none (h : hub.clients.find? (fun c => c.session = session) = none) :
    hub.remove session draw = hub := by
  rw [remove, h]

theorem remove_clients (h : hub.clients.find? (fun c => c.session = session) = some gone) :
    (hub.remove session draw).clients = (hub.without session).clients.map fun c =>
      if c.room = gone.room then
        c.loses session (bitsFor ((hub.without session).there gone.room).length
          ((hub.without session).before gone.room)) (draw c.session)
      else c := by
  simp only [remove, h, resize, List.map_map]
  apply List.map_congr_left
  intro c _
  by_cases hc : c.room = gone.room <;> simp [hc, Client.loses]

theorem remove_sizes (h : hub.clients.find? (fun c => c.session = session) = some gone) :
    (hub.remove session draw).sizes =
      hub.sizes ++ [(gone.room, ((hub.without session).there gone.room).length)] := by
  simp only [remove, h, resize, without, Nat.add_zero]

end Remove

theorem resize_there (extra : ℕ) :
    ((hub.resize room extra).1.there room).map Client.session =
      (hub.there room).map Client.session := by
  simp only [resize, there, List.filter_map, List.map_map]
  have hroom : (fun c : Client => decide (c.room = room)) ∘ (fun c : Client =>
      if c.room = room then
        { c with bits := bitsFor ((hub.there room).length + extra) (hub.before room) } else c) =
      fun c => decide (c.room = room) := by
    funext c
    by_cases hc : c.room = room <;> simp [hc]
  simp only [there] at hroom
  rw [hroom]
  apply List.map_congr_left
  intro c _
  by_cases hc : c.room = room <;> simp [hc]

theorem enter_clients : (hub.enter session room draw).clients =
    (hub.clients.map fun c =>
      if c.room = room then
        c.gains session (bitsFor ((hub.there room).length + 1) (hub.before room)) (draw c.session)
      else c) ++
    [(Client.new session room ((hub.there room).map Client.session)
      (bitsFor ((hub.there room).length + 1) (hub.before room))).negotiate (draw session)] := by
  simp only [enter]
  rw [resize_there]
  simp only [resize, List.map_map]
  congr 1
  apply List.map_congr_left
  intro c _
  by_cases hc : c.room = room <;> simp [hc, Client.gains]

/-- What somebody's going does to each client that stays. -/
theorem mem_remove (h : c ∈ (hub.remove session draw).clients) :
    (c ∈ hub.clients ∧ ∀ gone, hub.clients.find? (fun c => c.session = session) = some gone →
      c.room ≠ gone.room) ∨
    ∃ gone c₀, hub.clients.find? (fun c => c.session = session) = some gone ∧
      c₀ ∈ (hub.without session).clients ∧ c₀.room = gone.room ∧
      c = c₀.loses session (bitsFor ((hub.without session).there gone.room).length
          ((hub.without session).before gone.room)) (draw c₀.session) := by
  cases hgone : hub.clients.find? fun c => c.session = session with
  | none =>
    rw [remove_none hgone] at h
    exact .inl ⟨h, fun gone hg => by cases hg⟩
  | some gone =>
    rw [remove_clients hgone] at h
    obtain ⟨c₀, hc₀, rfl⟩ := List.mem_map.mp h
    by_cases hroom : c₀.room = gone.room
    · rw [if_pos hroom]
      exact .inr ⟨gone, c₀, rfl, hc₀, hroom, rfl⟩
    · rw [if_neg hroom]
      exact .inl ⟨List.mem_of_mem_eraseP hc₀, fun _ hg => by cases hg; exact hroom⟩

/-- What somebody's coming does to each client, themselves included. -/
theorem mem_enter (h : c ∈ (hub.enter session room draw).clients) :
    (c ∈ hub.clients ∧ c.room ≠ room) ∨
    (∃ c₀ ∈ hub.clients, c₀.room = room ∧
      c = c₀.gains session (bitsFor ((hub.there room).length + 1) (hub.before room))
        (draw c₀.session)) ∨
    c = (Client.new session room ((hub.there room).map Client.session)
      (bitsFor ((hub.there room).length + 1) (hub.before room))).negotiate (draw session) := by
  rw [enter_clients] at h
  rcases List.mem_append.mp h with hold | hnew
  · obtain ⟨c₀, hc₀, rfl⟩ := List.mem_map.mp hold
    by_cases hroom : c₀.room = room
    · rw [if_pos hroom]
      exact .inr (.inl ⟨c₀, hc₀, hroom, rfl⟩)
    · rw [if_neg hroom]
      exact .inl ⟨hc₀, hroom⟩
  · exact .inr (.inr (List.mem_singleton.mp hnew))

end Hub

theorem mem_replaceF {α : Type} {f : α → Option α} {l : List α} {a : α} (h : a ∈ l.replaceF f) :
    a ∈ l ∨ ∃ b ∈ l, f b = some a := by
  induction l with
  | nil => cases h
  | cons b l ih =>
    rw [List.replaceF] at h
    cases hb : f b with
    | none =>
      rw [hb] at h
      rcases List.mem_cons.mp h with rfl | hmem
      · exact .inl List.mem_cons_self
      · exact (ih hmem).imp (List.mem_cons_of_mem _) fun ⟨d, hd, hf⟩ =>
          ⟨d, List.mem_cons_of_mem _ hd, hf⟩
    | some d =>
      rw [hb] at h
      rcases List.mem_cons.mp h with rfl | hmem
      · exact .inr ⟨b, List.mem_cons_self, hb⟩
      · exact .inl (List.mem_cons_of_mem _ hmem)

theorem mem_replaceF_of_mem {α : Type} {f : α → Option α} {l : List α} {a b : α} (ha : a ∈ l)
    (hf : f a = some b) (hothers : ∀ d ∈ l, (f d).isSome = true → d = a) : b ∈ l.replaceF f := by
  induction l with
  | nil => cases ha
  | cons d l ih =>
    rw [List.replaceF]
    cases hd : f d with
    | none =>
      have hne : a ≠ d := by
        rintro rfl
        rw [hf] at hd
        cases hd
      have hmem := (List.mem_cons.mp ha).resolve_left hne
      exact List.mem_cons_of_mem _ (ih hmem fun e he => hothers e (List.mem_cons_of_mem _ he))
    | some b' =>
      cases hothers d List.mem_cons_self (by rw [hd]; rfl)
      cases hf.symm.trans hd
      exact List.mem_cons_self

theorem map_replaceF {α β : Type} {f : α → Option α} {g : α → β}
    (h : ∀ a b, f a = some b → g b = g a)
    (l : List α) : (l.replaceF f).map g = l.map g := by
  induction l with
  | nil => rfl
  | cons a l ih =>
    rw [List.replaceF]
    cases ha : f a with
    | none => simp [ih]
    | some b => simp [h a b ha]

namespace Hub
variable {hub : Hub} {session : SessionId} {room : RoomId} {draw : Draws} {c : Client}
  {text : Answer}

/-- What an answer does to the client it is from. -/
theorem mem_answer (h : c ∈ (hub.answer session text draw).clients) :
    c ∈ hub.clients ∨ ∃ c₀ ∈ hub.clients, c₀.session = session ∧
      (((c₀.accept text).2 = .ok () ∧ c = ((c₀.accept text).1).negotiate (draw c₀.session)) ∨
        ((∃ error, (c₀.accept text).2 = .error error) ∧ c = (c₀.accept text).1)) := by
  refine (mem_replaceF h).imp id fun ⟨c₀, hc₀, hf⟩ => ⟨c₀, hc₀, ?_⟩
  by_cases hs : c₀.session = session
  · refine ⟨hs, ?_⟩
    rw [if_pos hs] at hf
    rcases ha : c₀.accept text with ⟨c₁, _ | ⟨⟨⟩⟩⟩
    · rw [ha] at hf
      cases hf
      exact .inr ⟨⟨_, rfl⟩, rfl⟩
    · rw [ha] at hf
      cases hf
      exact .inl ⟨rfl, by rw [hs]⟩
  · rw [if_neg hs] at hf
    cases hf

@[simp] theorem loses_session {bits : ℕ} {d : ℕ → ℕ → Mid} :
    (c.loses session bits d).session = c.session := Client.negotiate_session

@[simp] theorem loses_room {bits : ℕ} {d : ℕ → ℕ → Mid} :
    (c.loses session bits d).room = c.room := Client.negotiate_room

@[simp] theorem gains_session {bits : ℕ} {d : ℕ → ℕ → Mid} :
    (c.gains session bits d).session = c.session := Client.negotiate_session

@[simp] theorem gains_room {bits : ℕ} {d : ℕ → ℕ → Mid} :
    (c.gains session bits d).room = c.room := Client.negotiate_room

theorem without_roster :
    (hub.without session).roster = hub.roster.eraseP fun e => e.1 = session := by
  rw [roster, roster, without, List.eraseP_map]
  rfl

theorem remove_roster :
    (hub.remove session draw).roster = hub.roster.eraseP fun e => e.1 = session := by
  cases hgone : hub.clients.find? fun c => c.session = session with
  | none =>
    rw [remove_none hgone]
    refine (List.eraseP_of_forall_not fun e he => ?_).symm
    obtain ⟨c, hc, rfl⟩ := List.mem_map.mp he
    simpa using List.find?_eq_none.mp hgone c hc
  | some gone =>
    rw [← without_roster, roster, remove_clients hgone, List.map_map]
    apply List.map_congr_left
    intro c _
    by_cases hroom : c.room = gone.room <;> simp [hroom, Client.loses, Client.forget]

theorem enter_roster : (hub.enter session room draw).roster = hub.roster ++ [(session, room)] := by
  rw [roster, enter_clients, List.map_append, List.map_map]
  congr 1
  · apply List.map_congr_left
    intro c _
    by_cases hroom : c.room = room <;> simp [hroom, Client.gains, Client.wants]
  · simp [Client.new]

theorem answer_roster : (hub.answer session text draw).roster = hub.roster := by
  apply map_replaceF
  intro c d hf
  by_cases hs : c.session = session
  · rw [if_pos hs] at hf
    rcases c.accept_cases text with ⟨pending, -, -, ha⟩ | ⟨-, error, ha⟩
    · rw [ha] at hf
      cases hf
      simp
    · rw [ha] at hf
      cases hf
      rfl
  · rw [if_neg hs] at hf
    cases hf

end Hub

/-- Everybody else in a room, in the order they joined. -/
def others (roster : List (SessionId × RoomId)) (room : RoomId) (session : SessionId) :
    List SessionId :=
  (roster.filter fun e => e.2 = room ∧ e.1 ≠ session).map Prod.fst

/-- Each session is there once, and each client has an out line for everybody else in
its room that nobody has left. -/
structure Seated (hub : Hub) : Prop where
  once : (hub.roster.map Prod.fst).Nodup
  wanted : ∀ c ∈ hub.clients,
    c.outs.filterMap Out.wanted = others hub.roster c.room c.session

section Others
variable {roster : List (SessionId × RoomId)} {room : RoomId} {session s : SessionId}

theorem mem_others : s ∈ others roster room session ↔ (s, room) ∈ roster ∧ s ≠ session := by
  simp only [others, List.mem_map, List.mem_filter, decide_eq_true_eq, Prod.exists,
    exists_and_right, exists_eq_right]
  constructor
  · rintro ⟨r, hmem, rfl, hs⟩
    exact ⟨hmem, hs⟩
  · rintro ⟨hmem, hs⟩
    exact ⟨room, hmem, rfl, hs⟩

theorem others_nodup (h : (roster.map Prod.fst).Nodup) : (others roster room session).Nodup :=
  h.sublist (List.filter_sublist.map _)

theorem others_length (h : (session, room) ∈ roster) :
    (others roster room session).length < roster.length := by
  rw [others, List.length_map]
  apply List.length_filter_lt_length_iff_exists.mpr
  exact ⟨(session, room), h, by simp⟩

theorem others_filter : others (roster.filter fun e => e.1 ≠ s) room session =
    (others roster room session).filter fun t => t ≠ s := by
  rw [others, others, List.filter_map, List.filter_filter, List.filter_filter]
  congr 2
  funext e
  exact Bool.and_comm _ _

theorem others_snoc {r : RoomId} (hs : s ≠ session) : others (roster ++ [(s, r)]) room session =
    others roster room session ++ if r = room then [s] else [] := by
  rw [others, List.filter_append, List.map_append, ← others]
  by_cases hr : r = room <;> simp [hr, hs]

theorem eraseP_fst (h : (roster.map Prod.fst).Nodup) :
    roster.eraseP (fun e => e.1 = s) = roster.filter fun e => e.1 ≠ s := by
  induction roster with
  | nil => rfl
  | cons e roster ih =>
    rw [List.map_cons, List.nodup_cons] at h
    by_cases he : e.1 = s
    · rw [List.eraseP_cons, List.filter_cons_of_neg (by simp [he]), decide_eq_true he]
      refine (List.filter_eq_self.mpr fun d hd => ?_).symm
      have hne : d.1 ≠ s := fun hd' => h.1 (he ▸ hd' ▸ List.mem_map_of_mem hd)
      exact decide_eq_true hne
    · rw [List.eraseP_cons_of_neg (by simp [he]), List.filter_cons_of_pos (by simp [he]), ih h.2]

end Others

namespace Seated
variable {hub : Hub} {session : SessionId} {room : RoomId} {draw : Draws} {c : Client}
  {text : Answer} {bits : ℕ} {d : ℕ → ℕ → Mid}

theorem loses_wanted : (c.loses session bits d).outs.filterMap Out.wanted =
    (c.outs.filterMap Out.wanted).filter fun s => s ≠ session := by
  rw [Client.loses, Client.negotiate_wanted]
  exact wanted_forget session

theorem gains_wanted : (c.gains session bits d).outs.filterMap Out.wanted =
    c.outs.filterMap Out.wanted ++ [session] := by
  rw [Client.gains, Client.negotiate_wanted]
  exact List.filterMap_append

theorem new_wanted {others : List SessionId} :
    ((Client.new session room others bits).negotiate d).outs.filterMap Out.wanted = others := by
  rw [Client.negotiate_wanted, Client.new, List.filterMap_map]
  exact List.filterMap_some

/-- A session stands in the roster with its own room only. -/
theorem room_eq (h : Seated hub) {r r' : RoomId} (hr : (session, r) ∈ hub.roster)
    (hr' : (session, r') ∈ hub.roster) : r = r' := by
  have := List.inj_on_of_nodup_map h.once hr hr' rfl
  exact congrArg Prod.snd this

theorem gone_mem {gone : Client}
    (h : hub.clients.find? (fun c => c.session = session) = some gone) :
    (session, gone.room) ∈ hub.roster := by
  have hs : gone.session = session := by simpa using List.find?_some h
  exact hs ▸ Hub.mem_roster (List.mem_of_find?_eq_some h)

theorem remove (h : Seated hub) : Seated (hub.remove session draw) := by
  have hroster : (hub.remove session draw).roster = hub.roster.filter fun e => e.1 ≠ session := by
    rw [Hub.remove_roster, eraseP_fst h.once]
  refine ⟨?_, fun c hc => ?_⟩
  · rw [hroster]
    exact h.once.sublist (List.filter_sublist.map _)
  · rw [hroster, others_filter]
    rcases Hub.mem_remove hc with ⟨hold, hroom⟩ | ⟨gone, c₀, hgone, hc₀, hroom, rfl⟩
    · rw [h.wanted c hold]
      refine (List.filter_eq_self.mpr fun s hs => ?_).symm
      refine decide_eq_true (p := s ≠ session) ?_
      intro he
      have hs := (mem_others.mp hs).1
      rw [he] at hs
      cases hgone : hub.clients.find? fun c => c.session = session with
      | some gone => exact hroom gone hgone (h.room_eq hs (gone_mem hgone))
      | none =>
        obtain ⟨e, he', hmem⟩ := List.mem_map.mp hs
        have := List.find?_eq_none.mp hgone e he'
        simp only [Prod.mk.injEq] at hmem
        exact this (decide_eq_true hmem.1)
    · have hmem : c₀ ∈ hub.clients := List.mem_of_mem_eraseP hc₀
      rw [Hub.loses_session, Hub.loses_room, loses_wanted, h.wanted c₀ hmem]

/-- After a session is taken out it is nowhere. -/
theorem not_mem_remove (h : Seated hub) {r : RoomId} :
    (session, r) ∉ (hub.remove session draw).roster := by
  rw [Hub.remove_roster, eraseP_fst h.once]
  simp

theorem enter (h : Seated hub) (hnew : ∀ r, (session, r) ∉ hub.roster) :
    Seated (hub.enter session room draw) := by
  have hne : ∀ c ∈ hub.clients, session ≠ c.session :=
    fun c hc he => hnew c.room (he ▸ Hub.mem_roster hc)
  refine ⟨?_, fun c hc => ?_⟩
  · rw [Hub.enter_roster, List.map_append, List.map_cons, List.map_nil]
    refine List.nodup_append.mpr ⟨h.once, List.nodup_singleton _, ?_⟩
    intro s hs t ht he
    obtain ⟨⟨s', r⟩, hmem, rfl⟩ := List.mem_map.mp hs
    have hsession : s' = session := he.trans (List.mem_singleton.mp ht)
    exact hnew r (hsession ▸ hmem)
  · rw [Hub.enter_roster]
    rcases Hub.mem_enter hc with ⟨hold, hroom⟩ | ⟨c₀, hc₀, rfl, rfl⟩ | rfl
    · rw [others_snoc (hne c hold), if_neg (Ne.symm hroom), List.append_nil]
      exact h.wanted c hold
    · rw [Hub.gains_session, Hub.gains_room, others_snoc (hne c₀ hc₀), if_pos rfl, gains_wanted,
        h.wanted c₀ hc₀]
    · rw [new_wanted]
      simp only [Client.negotiate_session, Client.negotiate_room, Client.new]
      have hself : others (hub.roster ++ [(session, room)]) room session =
          others hub.roster room session := by
        simp [others, List.filter_append]
      rw [hself, others, Hub.roster, List.filter_map, List.map_map, Hub.there]
      have hfilter : hub.clients.filter (fun c => decide (c.room = room)) =
          hub.clients.filter ((fun e : SessionId × RoomId => decide (e.2 = room ∧ e.1 ≠ session)) ∘
            fun c => (c.session, c.room)) := by
        apply List.filter_congr
        intro c hc
        simp [(hne c hc).symm]
      rw [hfilter]
      rfl

theorem answer (h : Seated hub) : Seated (hub.answer session text draw) := by
  refine ⟨by rw [Hub.answer_roster]; exact h.once, fun c hc => ?_⟩
  rw [Hub.answer_roster]
  rcases Hub.mem_answer hc with hold | ⟨c₀, hc₀, -, hnew⟩
  · exact h.wanted c hold
  · have hw := h.wanted c₀ hc₀
    rcases c₀.accept_cases text with ⟨pending, -, -, ha⟩ | ⟨-, error, ha⟩
    · rw [ha] at hnew
      rcases hnew with ⟨-, rfl⟩ | ⟨⟨_, he⟩, -⟩
      · rw [Client.negotiate_wanted, Client.negotiate_room, Client.negotiate_session]
        exact wanted_accepted.trans hw
      · cases he
    · rw [ha] at hnew
      rcases hnew with ⟨he, -⟩ | ⟨-, rfl⟩
      · cases he
      · exact hw

theorem step (h : Seated hub) (act : Act) : Seated (step hub act) := by
  obtain ⟨command, going, coming⟩ := act
  cases command with
  | join session room =>
    change Seated (if (hub.remove session going).usable then _ else _)
    split
    · exact h.remove.enter fun r => h.not_mem_remove
    · exact h.remove
  | answer session text => exact h.answer
  | leave session => exact h.remove

/-- A client has fewer people to hear than there are clients. -/
theorem wanted_length (h : Seated hub) (hc : c ∈ hub.clients) :
    (c.outs.filterMap Out.wanted).length < hub.clients.length := by
  have hlt := others_length (Hub.mem_roster hc)
  rw [h.wanted c hc]
  simpa [Hub.roster] using hlt

/-- However much has changed for a client, an offer of it adds no more m-lines than there
are clients, and one for its microphone. -/
theorem fresh_forget (h : Seated hub) (hc : c ∈ hub.clients) (bits : ℕ) :
    (({ c with bits := bits } : Client).forget session).fresh ≤ hub.clients.length + 1 := by
  have hlt := h.wanted_length hc
  refine (Client.fresh_le _).trans (Nat.succ_le_succ ?_)
  rw [Client.forget, wanted_forget]
  exact (List.length_filter_le _ _).trans (Nat.le_of_lt hlt)

theorem fresh_wants (h : Seated hub) (hc : c ∈ hub.clients) (bits : ℕ) :
    (({ c with bits := bits } : Client).wants session).fresh ≤ hub.clients.length + 1 := by
  have hlt := h.wanted_length hc
  refine (Client.fresh_le _).trans (Nat.succ_le_succ ?_)
  simpa [Client.wants, List.filterMap_append, Out.wanted] using Nat.succ_le_of_lt hlt

theorem fresh_accepted (h : Seated hub) (hc : c ∈ hub.clients) {c' : Client}
    (houts : c'.outs = c.outs.filterMap Out.accepted) : c'.fresh ≤ hub.clients.length + 1 := by
  have hlt := h.wanted_length hc
  refine (Client.fresh_le _).trans (Nat.succ_le_succ ?_)
  rw [houts, wanted_accepted]
  exact Nat.le_of_lt hlt

theorem fresh_new (hub : Hub) (session : SessionId) (room : RoomId) (bits : ℕ) :
    (Client.new session room ((hub.there room).map Client.session) bits).fresh ≤
      hub.clients.length + 1 := by
  refine (Client.fresh_le _).trans (Nat.succ_le_succ ((List.length_filterMap_le _ _).trans ?_))
  simp only [Client.new, List.length_map]
  exact List.length_filter_le _ _

/-- What holds of each client once a session is taken out: of those in other rooms as
before, and of those in its room with one person fewer. -/
theorem remove_forall (h : Seated hub) {Q : Client → Prop}
    (hsame : ∀ c ∈ hub.clients, c.session ≠ session →
      (∀ gone, hub.clients.find? (fun c => c.session = session) = some gone →
        c.room ≠ gone.room) → Q c)
    (hloses : ∀ gone c, hub.clients.find? (fun c => c.session = session) = some gone →
      c ∈ hub.clients → c.session ≠ session → c.room = gone.room →
      Q (c.loses session (bitsFor ((hub.without session).there gone.room).length
        ((hub.without session).before gone.room)) (draw c.session))) :
    ∀ c ∈ (hub.remove session draw).clients, Q c := by
  intro c hc
  rcases Hub.mem_remove hc with ⟨hold, hroom⟩ | ⟨gone, c₀, hgone, hc₀, hroom, rfl⟩
  · refine hsame c hold (fun hs => ?_) hroom
    cases hgone : hub.clients.find? fun c => c.session = session with
    | none => exact List.find?_eq_none.mp hgone c hold (decide_eq_true hs)
    | some gone =>
      exact hroom gone hgone (h.room_eq (hs ▸ Hub.mem_roster hold) (gone_mem hgone))
  · refine hloses gone c₀ hgone (List.mem_of_mem_eraseP hc₀) (fun hs => ?_) hroom
    -- the one client of the session is the one that was taken out
    have hleft : (c₀.session, c₀.room) ∈ (hub.roster.eraseP fun e => e.1 = session) := by
      have hmem := Hub.mem_roster hc
      rwa [Hub.remove_roster, Hub.loses_session, Hub.loses_room] at hmem
    rw [eraseP_fst h.once] at hleft
    exact absurd hs (by simpa using (List.mem_filter.mp hleft).2)

/-- What holds of each client once a session has come into a room. -/
theorem enter_forall {Q : Client → Prop} (hsame : ∀ c ∈ hub.clients, c.room ≠ room → Q c)
    (hgains : ∀ c ∈ hub.clients, c.room = room →
      Q (c.gains session (bitsFor ((hub.there room).length + 1) (hub.before room))
        (draw c.session)))
    (hnew : Q ((Client.new session room ((hub.there room).map Client.session)
      (bitsFor ((hub.there room).length + 1) (hub.before room))).negotiate (draw session))) :
    ∀ c ∈ (hub.enter session room draw).clients, Q c := by
  intro c hc
  rcases Hub.mem_enter hc with ⟨hold, hroom⟩ | ⟨c₀, hc₀, hroom, rfl⟩ | rfl
  · exact hsame c hold hroom
  · exact hgains c₀ hc₀ hroom
  · exact hnew

end Seated

namespace Command

def session : Command → SessionId
  | .join session _ => session
  | .answer session _ => session
  | .leave session => session

/-- An answer applies to the offer that is out. -/
def Applies : Command → Prop
  | .answer _ text => text = .applies
  | _ => True

instance : DecidablePred Applies := fun command => by
  cases command <;> unfold Applies <;> infer_instance

end Command

/-- Whoever may draw m-lines finds a draw that repeats none. -/
def DrawsApart (hub : Hub) (act : Act) : Prop :=
  ∀ s ∈ act.command.session :: hub.clients.map Client.session,
    Apart (act.going s) (hub.clients.length + 1) ∧ Apart (act.coming s) (hub.clients.length + 1)

/-- The m-lines a connection has agreed on, and those its offer adds. -/
def Client.named (c : Client) : List Mid :=
  c.rtc.lines ++ (c.pending.elim [] SdpPendingOffer.added)

/-- A mid drawn for a connection is none it has. -/
def Act.DrawsNewFor (act : Act) (c : Client) (attempt i : ℕ) : Prop :=
  match act.command with
  | .answer session _ => c.session = session → act.coming c.session attempt i ∉ c.named
  | .join session _ => c.session ≠ session →
    act.going c.session attempt i ∉ c.rtc.lines ∧ act.coming c.session attempt i ∉ c.rtc.lines
  | .leave session => c.session ≠ session → act.going c.session attempt i ∉ c.rtc.lines

instance (act : Act) (c : Client) (attempt i : ℕ) : Decidable (act.DrawsNewFor c attempt i) :=
  match act with
  | ⟨.answer _ _, _, _⟩ => inferInstanceAs (Decidable (_ → _))
  | ⟨.join _ _, _, _⟩ => inferInstanceAs (Decidable (_ → _ ∧ _))
  | ⟨.leave _, _, _⟩ => inferInstanceAs (Decidable (_ → _))

def DrawsNew (hub : Hub) (act : Act) : Prop :=
  ∀ c ∈ hub.clients, ∀ attempt, attempt < draws → ∀ i, i ≤ hub.clients.length →
    act.DrawsNewFor c attempt i

instance (hub : Hub) (act : Act) : Decidable (DrawsApart hub act) :=
  inferInstanceAs (Decidable (∀ _ ∈ _, _))

instance (hub : Hub) (act : Act) : Decidable (DrawsNew hub act) :=
  inferInstanceAs (Decidable (∀ _ ∈ _, _))

end Linger.Sfu
