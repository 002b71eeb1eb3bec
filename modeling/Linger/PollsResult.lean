import Linger.Polls

/-! How a poll came out: what is written in its closed line, counted in the closing transaction, is
what is read of it later. -/
namespace Linger.Polls
open FiniteMap StepMachine TaskPool
open Linger.Messages (Body)
open Linger.Posts (ApiError asWords closedWords)

section Counting
variable {polls : FMap MessageId PollRow} {choices : List ChoiceRow} {votes : List VoteRow}
  {id : MessageId}
  {poll : Poll}

/-- Each choice has the people whose votes name its place. -/
theorem addVoters (cs : List PollChoice) (vs : List VoteRow) : vs.foldl addVoter cs =
    cs.mapIdx fun at' choice =>
      { choice with voterIds := choice.voterIds ++
        (vs.filter fun v => v.position = at').map VoteRow.userId } := by
  induction vs generalizing cs with
  | nil => exact List.ext_getElem (by simp) fun at' h h' => by simp
  | cons v vs ih =>
    rw [List.foldl_cons, ih]
    refine List.ext_getElem (by simp [addVoter]) fun at' h h' => ?_
    rw [List.getElem_mapIdx, List.getElem_mapIdx]
    by_cases hat : v.position = at'
    · simp [addVoter, hat]
    · simp [addVoter, hat]

theorem mem_choicesOf {c : ChoiceRow} (hc : c ∈ choicesOf choices id) :
    c ∈ choices ∧ c.messageId = id := by
  simpa using List.mem_filter.mp ((List.mem_insertionSort _).mp hc)

/-- How many votes name a place. -/
def count (votes : List VoteRow) (id : MessageId) (position : ℕ) : ℕ :=
  ((votesOf votes id).filter fun v => v.position = position).length

theorem winners_eq : winners choices votes id =
    (let most := ((choicesOf choices id).map fun c => count votes id c.position).foldl max 0
     if most = 0 then []
     else ((choicesOf choices id).filter fun c => count votes id c.position =
       most).map ChoiceRow.text) := by
  have hcounted : ((choicesOf choices id).map fun c =>
      (c.text, (votes.filter fun v => v.messageId = c.messageId ∧ v.position = c.position).length))
        =
      (choicesOf choices id).map fun c => (c.text, count votes id c.position) := by
    refine List.map_congr_left fun c hc => ?_
    rw [(mem_choicesOf hc).2, count, votesOf, List.filter_filter]
    congr 2
    refine List.filter_congr fun v _ => ?_
    rw [Bool.decide_and, Bool.and_comm]
  simp only [winners, hcounted, List.map_map, List.filter_map]
  rfl

/-- The choices as they are loaded, when a place is a choice's own number. -/
theorem load_choices (hload : load polls choices votes id = some poll)
    (hplaces : (choicesOf choices id).map ChoiceRow.position =
      List.range (choicesOf choices id).length) :
    ∃ row, (polls[id]? : Option PollRow) = some row ∧ poll.question = row.question ∧
      poll.multi = row.multi ∧ poll.closedAt = row.closedAt ∧
      ∃ voters : ChoiceRow → List UserId, (∀ c, (voters c).length = count votes id c.position) ∧
        poll.choices = (choicesOf choices id).map fun c => ⟨c.text, voters c⟩ := by
  obtain ⟨row, hrow, rfl⟩ := Option.map_eq_some_iff.mp hload
  refine ⟨row, hrow, rfl, rfl, rfl,
    fun c =>
      (((votesOf votes id).insertionSort VoteRow.le).filter fun v => v.position = c.position).map
      VoteRow.userId, fun c => ?_, ?_⟩
  · rw [List.length_map]
    exact ((List.perm_insertionSort _ _).filter _).length_eq
  · rw [addVoters]
    refine List.ext_getElem (by simp) fun at' h h' => ?_
    have hlen : at' < (choicesOf choices id).length := by simpa using h'
    have hplace : (choicesOf choices id)[at'].position = at' := by
      have hget := congrArg (fun places => places[at']?) hplaces
      simpa [hlen] using hget
    simp [hplace]

/-- The two counts are one. -/
theorem winners_loaded (hload : load polls choices votes id = some poll)
    (hplaces : (choicesOf choices id).map ChoiceRow.position =
      List.range (choicesOf choices id).length) :
    winnersOf poll = winners choices votes id := by
  obtain ⟨row, -, -, -, -, voters, hvoters, hchoices⟩ := load_choices hload hplaces
  rw [winners_eq, winnersOf, hchoices]
  simp only [List.map_map, List.filter_map, Function.comp_def, hvoters]

/-- What the result is counted from. -/
theorem winners_congr {choices' : List ChoiceRow} {votes' : List VoteRow}
    (hchoices : choicesOf choices' id = choicesOf choices id)
    (hvotes : votesOf votes' id = votesOf votes id) :
    winners choices' votes' id = winners choices votes id := by
  have hcount (position : ℕ) : count votes' id position = count votes id position := by
    rw [count, count, hvotes]
  rw [winners_eq, winners_eq, hchoices]
  simp only [hcount]

end Counting

/-- What the rules promise of the votes that are stored. -/
structure Ruled (db : Tables) : Prop where
  ranged : ∀ v ∈ db.votes, ∃ poll, (db.polls[v.messageId]? : Option PollRow) = some poll ∧
    v.position < (choicesOf db.choices v.messageId).length
  single : ∀ (id : MessageId) (poll : PollRow), db.polls[id]? = some poll → poll.multi = false →
    ∀ userId, (db.votes.filter fun v => v.messageId = id ∧ v.userId = userId).length ≤ 1
  once : (db.votes.map fun v => (v.messageId, v.position, v.userId)).Nodup

/-- A message is a poll's closed line. -/
def IsLine (db : Tables) (id line : MessageId) : Prop :=
  ∃ m, (db.messages[line]? : Option MessageRow) = some m ∧ m.pollClosed = some id

/-- What else the tables keep. -/
structure Kept (db : Tables) : Prop where
  below : ∀ (id : MessageId) (m : MessageRow), db.messages[id]? = some m → id < db.nextMessage
  asked : ∀ (id : MessageId) (poll : PollRow), db.polls[id]? = some poll → id < db.nextMessage
  chosen : ∀ c ∈ db.choices, c.messageId < db.nextMessage
  places : ∀ id, (choicesOf db.choices id).map ChoiceRow.position =
    List.range (choicesOf db.choices id).length
  lines : ∀ id line, IsLine db id line →
    ∃ poll, (db.polls[id]? : Option PollRow) = some poll ∧ poll.closedAt.isSome = true
  one : ∀ (id : MessageId) (poll : PollRow), db.polls[id]? = some poll →
    poll.closedAt.isSome = true → ∃ line, ∀ line', IsLine db id line' ↔ line' = line

/-- What any later tables still have of a poll, and of a closed one. -/
structure Later (db db' : Tables) : Prop where
  polls : ∀ (id : MessageId) (poll : PollRow), db.polls[id]? = some poll →
    ∃ poll', (db'.polls[id]? : Option PollRow) = some poll' ∧ poll'.question = poll.question ∧
      poll'.multi = poll.multi ∧ (poll.closedAt.isSome = true → poll' = poll) ∧
      choicesOf db'.choices id = choicesOf db.choices id
  messages : ∀ (id : MessageId) (m : MessageRow), db.messages[id]? = some m →
    ∃ m', (db'.messages[id]? : Option MessageRow) = some m' ∧ m'.pollClosed = m.pollClosed ∧
      (m'.deletedAt = none → m' = m)

theorem Later.refl (db : Tables) : Later db db :=
  ⟨fun _ poll h => ⟨poll, h, rfl, rfl, fun _ => rfl, rfl⟩, fun _ m h => ⟨m, h, rfl, fun _ => rfl⟩⟩

/-- What a vote is checked for, and still has when it is written. -/
def Checked (db : Tables) (id : MessageId) (picked : List ℕ) : Prop :=
  picked.Nodup ∧ ∃ poll, (db.polls[id]? : Option PollRow) = some poll ∧
    (poll.multi = false → picked.length ≤ 1) ∧
    ∀ at' ∈ picked, at' < (choicesOf db.choices id).length

theorem Checked.later {db db' : Tables} {id : MessageId} {picked : List ℕ}
    (h : Checked db id picked)
    (hlater : Later db db') : Checked db' id picked := by
  obtain ⟨hnodup, poll, hpoll, hsingle, hranged⟩ := h
  obtain ⟨poll', hpoll', -, hmulti, -, hchoices⟩ := hlater.polls id poll hpoll
  refine ⟨hnodup, poll', hpoll', fun hm => hsingle (hmulti.symm.trans hm), ?_⟩
  rw [hchoices]
  exact hranged

section Writes
variable {db : Tables} {userId : UserId} {roomId : RoomId} {id line : MessageId} {now : ℤ}
  {poll : PollRow}
  {message : MessageRow}

section Ask
variable {question : Body} {choices : List Body} {multi : Bool} {closesInDays : ℕ}

theorem choicesOf_ask_ne (hne : id ≠ db.nextMessage) :
    choicesOf (db.ask userId roomId question choices multi closesInDays now).choices id =
      choicesOf db.choices id := by
  have hnone :
      (choices.mapIdx fun position text => (⟨db.nextMessage, position, text⟩ : ChoiceRow)).filter
      (fun c => c.messageId = id) = [] := by
    rw [List.filter_eq_nil_iff]
    intro c hc
    obtain ⟨at', h, rfl⟩ := List.mem_mapIdx.mp hc
    simpa using hne.symm
  rw [choicesOf, Tables.ask, List.filter_append, hnone, List.append_nil, choicesOf]

theorem choicesOf_ask (hkept : Kept db) :
    choicesOf (db.ask userId roomId question choices multi closesInDays now).choices db.nextMessage
      =
      choices.mapIdx fun position text => ⟨db.nextMessage, position, text⟩ := by
  have hnone : db.choices.filter (fun c => c.messageId = db.nextMessage) = [] := by
    rw [List.filter_eq_nil_iff]
    intro c hc
    have hlt := hkept.chosen c hc
    simpa using hlt.ne
  have hall :
      (choices.mapIdx fun position text => (⟨db.nextMessage, position, text⟩ : ChoiceRow)).filter
      (fun c => c.messageId = db.nextMessage) =
        choices.mapIdx fun position text => ⟨db.nextMessage, position, text⟩ := by
    rw [List.filter_eq_self]
    intro c hc
    obtain ⟨at', h, rfl⟩ := List.mem_mapIdx.mp hc
    simp
  rw [choicesOf, Tables.ask, List.filter_append, hnone, hall, List.nil_append]
  apply List.Pairwise.insertionSort_eq
  rw [List.pairwise_iff_getElem]
  intro i j hi hj hij
  simpa using hij.le

theorem poll_ask :
    ((db.ask userId roomId question choices multi closesInDays now).polls[id]? : Option PollRow) =
    if id = db.nextMessage then
      some { question := question, multi := multi, closesAt := now +
        closesInDays * DAY_MS, closedAt := none
             closedBy := none }
    else db.polls[id]? :=
  insert_at ..

theorem later_ask (hkept : Kept db) :
    Later db (db.ask userId roomId question choices multi closesInDays now) := by
  constructor
  · intro id poll hpoll
    have hne : id ≠ db.nextMessage := (hkept.asked id poll hpoll).ne
    exact ⟨poll, by rw [poll_ask, if_neg hne, hpoll], rfl, rfl, fun _ => rfl, choicesOf_ask_ne hne⟩
  · intro id m hm
    have hne : id ≠ db.nextMessage := (hkept.below id m hm).ne
    exact ⟨m, by rw [Tables.ask, insert_at, if_neg hne, hm], rfl, fun _ => rfl⟩

theorem isLine_ask (hkept : Kept db) :
    IsLine (db.ask userId roomId question choices multi closesInDays now) id line ↔
      IsLine db id line := by
  rw [IsLine, IsLine, Tables.ask, insert_at]
  split
  · next heq =>
    constructor
    · rintro ⟨m, hm, hline⟩
      cases hm
      cases hline
    · rintro ⟨m, hm, -⟩
      exact absurd heq (hkept.below line m hm).ne
  · exact Iff.rfl

theorem Kept.ask (hkept : Kept db) :
    Kept (db.ask userId roomId question choices multi closesInDays now) where
  below := by
    intro id m hm
    rw [Tables.ask, insert_at] at hm
    split at hm
    · next hid => exact hid ▸ Nat.lt_succ_self _
    · exact Nat.lt_succ_of_lt (hkept.below id m hm)
  asked := by
    intro id poll hpoll
    rw [poll_ask] at hpoll
    split at hpoll
    · next hid => exact hid ▸ Nat.lt_succ_self _
    · exact Nat.lt_succ_of_lt (hkept.asked id poll hpoll)
  chosen := by
    intro c hc
    rcases List.mem_append.mp hc with hc | hc
    · exact Nat.lt_succ_of_lt (hkept.chosen c hc)
    · obtain ⟨at', h, rfl⟩ := List.mem_mapIdx.mp hc
      exact Nat.lt_succ_self _
  places := by
    intro id
    by_cases hid : id = db.nextMessage
    · rw [hid, choicesOf_ask hkept]
      exact List.ext_getElem (by simp) fun at' h h' => by simp
    · rw [choicesOf_ask_ne hid]
      exact hkept.places id
  lines := by
    intro id line hline
    obtain ⟨poll, hpoll, hclosed⟩ := hkept.lines id line ((isLine_ask hkept).mp hline)
    have hne : id ≠ db.nextMessage := (hkept.asked id poll hpoll).ne
    exact ⟨poll, by rw [poll_ask, if_neg hne, hpoll], hclosed⟩
  one := by
    intro id poll hpoll hclosed
    rw [poll_ask] at hpoll
    split at hpoll
    · cases hpoll
      cases hclosed
    · obtain ⟨line, hline⟩ := hkept.one id poll hpoll hclosed
      exact ⟨line, fun line' => (isLine_ask hkept).trans (hline line')⟩

theorem Ruled.ask (hruled : Ruled db) (hkept : Kept db) :
    Ruled (db.ask userId roomId question choices multi closesInDays now) where
  ranged := by
    intro v hv
    obtain ⟨poll, hpoll, hlt⟩ := hruled.ranged v hv
    have hne : v.messageId ≠ db.nextMessage := (hkept.asked _ poll hpoll).ne
    rw [poll_ask, if_neg hne, choicesOf_ask_ne hne]
    exact ⟨poll, hpoll, hlt⟩
  single := by
    intro id poll hpoll hmulti userId'
    rw [poll_ask] at hpoll
    split at hpoll
    · next hid =>
      -- nobody has voted in it yet
      have hnone : db.votes.filter (fun v => v.messageId = id ∧ v.userId = userId') = [] := by
        rw [List.filter_eq_nil_iff]
        intro v hv
        obtain ⟨poll, hpoll, -⟩ := hruled.ranged v hv
        have hne := (hkept.asked _ poll hpoll).ne
        simp only [decide_eq_true_eq]
        exact fun hv => hne (hv.1.trans hid)
      change (db.votes.filter _).length ≤ 1
      rw [hnone]
      exact Nat.zero_le _
    · exact hruled.single id poll hpoll hmulti userId'
  once := hruled.once

end Ask

section Vote
variable {picked : List ℕ}

theorem later_vote : Later db (db.vote userId id picked now) :=
  ⟨fun _ poll h => ⟨poll, h, rfl, rfl, fun _ => rfl, rfl⟩, fun _ m h => ⟨m, h, rfl, fun _ => rfl⟩⟩

theorem Kept.vote (hkept : Kept db) : Kept (db.vote userId id picked now) :=
  ⟨hkept.below, hkept.asked, hkept.chosen, hkept.places, hkept.lines, hkept.one⟩

theorem Ruled.vote (hruled : Ruled db) (hchecked : Checked db id picked) :
    Ruled (db.vote userId id picked now) := by
  obtain ⟨hnodup, poll, hpoll, hsingle, hranged⟩ := hchecked
  have hrow {v : VoteRow} (hv : v ∈ (picked.insertionSort (· ≤ ·)).map
      fun position => (⟨id, position, userId, now⟩ : VoteRow)) :
      v.messageId = id ∧ v.userId = userId ∧ v.position ∈ picked := by
    obtain ⟨position, hposition, rfl⟩ := List.mem_map.mp hv
    exact ⟨rfl, rfl, (List.mem_insertionSort _).mp hposition⟩
  constructor
  -- every vote is for a choice the poll has
  · intro v hv
    rcases List.mem_append.mp hv with hv | hv
    · exact hruled.ranged v (List.mem_of_mem_filter hv)
    · obtain ⟨hid, -, hposition⟩ := hrow hv
      rw [hid]
      exact ⟨poll, hpoll, hranged _ hposition⟩
  -- In a poll of one choice a vote takes the place of the voter's last.
  · intro id' poll' hpoll' hmulti userId'
    change (((db.votes.filter _) ++ _).filter _).length ≤ 1
    rw [List.filter_append, List.length_append]
    by_cases hsame : id' = id ∧ userId' = userId
    · obtain ⟨rfl, rfl⟩ := hsame
      rw [show db.polls[id']? = some poll' from hpoll'] at hpoll
      cases hpoll
      have hold : ((db.votes.filter fun v => ¬ (v.messageId = id' ∧ v.userId = userId')).filter
          fun v => v.messageId = id' ∧ v.userId = userId') = [] := by
        rw [List.filter_eq_nil_iff]
        intro v hv
        have hne := (List.mem_filter.mp hv).2
        simp only [decide_eq_true_eq] at hne ⊢
        exact hne
      have hnew :=
        List.length_filter_le (fun v : VoteRow => decide (v.messageId = id' ∧ v.userId = userId'))
        ((picked.insertionSort (· ≤ ·)).map fun position =>
          (⟨id', position, userId', now⟩ : VoteRow))
      rw [List.length_map, List.length_insertionSort] at hnew
      have hle := hsingle hmulti
      rw [hold, List.length_nil]
      omega
    -- For another voter or poll this vote adds nothing.
    · have hnew : ((picked.insertionSort (· ≤ ·)).map fun position =>
          (⟨id, position, userId, now⟩ : VoteRow)).filter
            (fun v => v.messageId = id' ∧ v.userId = userId') = [] := by
        rw [List.filter_eq_nil_iff]
        intro v hv
        obtain ⟨hid, huser, -⟩ := hrow hv
        simp only [decide_eq_true_eq]
        exact fun h => hsame ⟨h.1.symm.trans hid, h.2.symm.trans huser⟩
      have hold := hruled.single id' poll' hpoll' hmulti userId'
      have hsub := ((List.filter_sublist (l := db.votes)
        (p := fun v => ¬ (v.messageId = id ∧ v.userId = userId))).filter
        fun v => decide (v.messageId = id' ∧ v.userId = userId')).length_le
      rw [hnew, List.length_nil]
      omega
  -- no choice is voted twice by one
  · change ((db.votes.filter _ ++ _).map _).Nodup
    rw [List.map_append, List.nodup_append]
    refine ⟨hruled.once.sublist (List.filter_sublist.map _), ?_, ?_⟩
    · rw [List.map_map]
      have hsorted : (picked.insertionSort (· ≤ ·)).Nodup :=
        (List.perm_insertionSort _ _).nodup_iff.mpr hnodup
      exact hsorted.map fun a b hab => by simpa using hab
    · intro key hold key' hnew
      obtain ⟨v, hv, rfl⟩ := List.mem_map.mp hold
      obtain ⟨v', hv', rfl⟩ := List.mem_map.mp hnew
      obtain ⟨hid, huser, -⟩ := hrow hv'
      intro heq
      have hne := (List.mem_filter.mp hv).2
      simp only [Prod.mk.injEq] at heq
      simp [heq.1, heq.2.2, hid, huser] at hne

end Vote

section Close
variable {by' : Option UserId}

theorem open_iff :
    db.open? id = some (poll, message) ↔ (db.polls[id]? : Option PollRow) = some poll ∧
    (db.messages[id]? : Option MessageRow) = some message ∧ poll.closedAt = none ∧
    message.deletedAt = none := by
  rw [Tables.open?]
  split
  · next hpoll hmessage =>
    rw [hpoll, hmessage, Option.ite_none_right_eq_some]
    constructor
    · rintro ⟨⟨hclosed, hdeleted⟩, heq⟩
      cases heq
      exact ⟨rfl, rfl, hclosed, hdeleted⟩
    · rintro ⟨hpoll, hmessage, hopen⟩
      cases hpoll
      cases hmessage
      exact ⟨hopen, rfl⟩
  · next hnone =>
    constructor
    · intro h
      cases h
    · rintro ⟨hpoll, hmessage, -⟩
      exact absurd hmessage (hnone _ _ hpoll)

theorem poll_close {id' : MessageId} :
    ((db.close id by' poll message now).polls[id']? : Option PollRow) =
    if id' = id then some { poll with closedAt := some now, closedBy := by' } else db.polls[id']? :=
  insert_at ..

theorem later_close (hkept : Kept db) (hopen : db.open? id = some (poll, message)) :
    Later db (db.close id by' poll message now) := by
  obtain ⟨hpoll, -, hclosed, -⟩ := open_iff.mp hopen
  constructor
  · intro id' poll' hpoll'
    rw [poll_close]
    split
    · next hid =>
      rw [hid, hpoll] at hpoll'
      cases hpoll'
      refine ⟨_, rfl, rfl, rfl, fun hsome => ?_, rfl⟩
      rw [hclosed] at hsome
      cases hsome
    · exact ⟨poll', hpoll', rfl, rfl, fun _ => rfl, rfl⟩
  · intro id' m hm
    have hne : id' ≠ db.nextMessage := (hkept.below id' m hm).ne
    exact ⟨m, by rw [Tables.close, insert_at, if_neg hne, hm], rfl, fun _ => rfl⟩

theorem isLine_close (hkept : Kept db) {id' : MessageId} :
    IsLine (db.close id by' poll message now) id' line ↔
      IsLine db id' line ∨ id' = id ∧ line = db.nextMessage := by
  rw [IsLine, IsLine, Tables.close, insert_at]
  split
  · next heq =>
    constructor
    · rintro ⟨m, hm, hline⟩
      cases hm
      cases hline
      exact .inr ⟨rfl, heq⟩
    · rintro (⟨m, hm, -⟩ | ⟨rfl, -⟩)
      · exact absurd heq (hkept.below line m hm).ne
      · exact ⟨_, rfl, rfl⟩
  · next hne =>
    constructor
    · exact .inl
    · rintro (h | ⟨-, heq⟩)
      · exact h
      · exact absurd heq hne

/-- The poll had no line before, and has the one that is written now. -/
theorem Kept.close (hkept : Kept db) (hopen : db.open? id = some (poll, message)) :
    Kept (db.close id by' poll message now) where
  below := by
    intro id' m hm
    rw [Tables.close, insert_at] at hm
    split at hm
    · next hid => exact hid ▸ Nat.lt_succ_self _
    · exact Nat.lt_succ_of_lt (hkept.below id' m hm)
  asked := by
    intro id' poll' hpoll'
    rw [poll_close] at hpoll'
    split at hpoll'
    · next hid =>
      rw [hid]
      exact Nat.lt_succ_of_lt (hkept.asked id poll (open_iff.mp hopen).1)
    · exact Nat.lt_succ_of_lt (hkept.asked id' poll' hpoll')
  chosen := fun c hc => Nat.lt_succ_of_lt (hkept.chosen c hc)
  places := hkept.places
  lines := by
    intro id' line hline
    rw [poll_close]
    split
    · exact ⟨_, rfl, rfl⟩
    · next hne =>
      rcases (isLine_close hkept).mp hline with hline | ⟨hid, -⟩
      · exact hkept.lines id' line hline
      · exact absurd hid hne
  one := by
    intro id' poll' hpoll' hclosed
    rw [poll_close] at hpoll'
    split at hpoll'
    · next hid =>
      refine ⟨db.nextMessage, fun line' => (isLine_close hkept).trans ?_⟩
      constructor
      · rintro (hline | ⟨-, hline⟩)
        · obtain ⟨poll', hpoll', hclosed'⟩ := hkept.lines id' line' hline
          obtain ⟨hpoll, -, hopen, -⟩ := open_iff.mp hopen
          rw [hid, hpoll] at hpoll'
          cases hpoll'
          rw [hopen] at hclosed'
          cases hclosed'
        · exact hline
      · exact fun hline => .inr ⟨hid, hline⟩
    · next hne =>
      obtain ⟨line, hline⟩ := hkept.one id' poll' hpoll' hclosed
      refine ⟨line, fun line' => (isLine_close hkept).trans ?_⟩
      rw [hline line']
      exact or_iff_left fun h => hne h.1

theorem Ruled.close (hruled : Ruled db) (hopen : db.open? id = some (poll, message)) :
    Ruled (db.close id by' poll message now) := by
  obtain ⟨hpoll, -⟩ := open_iff.mp hopen
  refine ⟨fun v hv => ?_, fun id' poll' hpoll' hmulti => ?_, hruled.once⟩
  · obtain ⟨poll', hpoll', hlt⟩ := hruled.ranged v hv
    rw [poll_close]
    split
    · exact ⟨_, rfl, hlt⟩
    · exact ⟨poll', hpoll', hlt⟩
  · rw [poll_close] at hpoll'
    split at hpoll'
    · next hid =>
      cases hpoll'
      rw [hid]
      exact hruled.single id poll hpoll hmulti
    · exact hruled.single id' poll' hpoll' hmulti

end Close

end Writes

/-- Messages whose words are taken away, and votes with them. -/
structure Touched (db db' : Tables) : Prop where
  messages : ∀ id : MessageId, (db'.messages[id]? : Option MessageRow) = db.messages[id]? ∨
    ∃ m now, (db.messages[id]? : Option MessageRow) = some m ∧
      (db'.messages[id]? : Option MessageRow) = some (Tables.tombstone now m)
  polls : db'.polls = db.polls
  choices : db'.choices = db.choices
  nextMessage : db'.nextMessage = db.nextMessage
  votes : db'.votes.Sublist db.votes

section Touched
variable {db db' : Tables} {userId : UserId} {id line : MessageId} {now : ℤ}

theorem touched_delete : Touched db (db.delete id now) := by
  refine ⟨fun id' => ?_, rfl, rfl, rfl, List.Sublist.refl _⟩
  rw [Tables.delete, alter_at]
  split
  · next hid =>
    rw [hid]
    cases hm : (db.messages[id]? : Option MessageRow) with
    | none => exact .inl rfl
    | some m => exact .inr ⟨m, now, rfl, rfl⟩
  · exact .inl rfl

theorem touched_erase : Touched db (db.erase userId now) := by
  refine ⟨fun id' => ?_, rfl, rfl, rfl, List.filter_sublist⟩
  rw [Tables.erase, Std.ExtTreeMap.getElem?_map]
  cases hm : (db.messages[id']? : Option MessageRow) with
  | none => exact .inl rfl
  | some m =>
    rw [Option.map_some]
    split
    · exact .inr ⟨m, now, rfl, rfl⟩
    · exact .inl rfl

theorem Touched.later (h : Touched db db') : Later db db' := by
  constructor
  · intro id poll hpoll
    rw [h.polls, h.choices]
    exact ⟨poll, hpoll, rfl, rfl, fun _ => rfl, rfl⟩
  · intro id m hm
    rcases h.messages id with heq | ⟨m', now, hm', hgone⟩
    · exact ⟨m, heq.trans hm, rfl, fun _ => rfl⟩
    · rw [hm'] at hm
      cases hm
      exact ⟨_, hgone, rfl, fun hdeleted => by cases hdeleted⟩

theorem Touched.isLine (h : Touched db db') : IsLine db' id line ↔ IsLine db id line := by
  rw [IsLine, IsLine]
  rcases h.messages line with heq | ⟨m, now, hm, hgone⟩
  · rw [heq]
  · rw [hm, hgone]
    constructor
    · rintro ⟨m', hm', hline⟩
      cases hm'
      exact ⟨m, rfl, hline⟩
    · rintro ⟨m', hm', hline⟩
      cases hm'
      exact ⟨_, rfl, hline⟩

theorem Kept.touched (hkept : Kept db) (h : Touched db db') : Kept db' where
  below := by
    intro id m hm
    rw [h.nextMessage]
    rcases h.messages id with heq | ⟨m', now, hm', -⟩
    · exact hkept.below id m (heq.symm.trans hm)
    · exact hkept.below id m' hm'
  asked := by
    rw [h.polls, h.nextMessage]
    exact hkept.asked
  chosen := by
    rw [h.choices, h.nextMessage]
    exact hkept.chosen
  places := by
    rw [h.choices]
    exact hkept.places
  lines := by
    intro id line hline
    rw [h.polls]
    exact hkept.lines id line (h.isLine.mp hline)
  one := by
    intro id poll hpoll hclosed
    rw [h.polls] at hpoll
    obtain ⟨line, hline⟩ := hkept.one id poll hpoll hclosed
    exact ⟨line, fun line' => h.isLine.trans (hline line')⟩

theorem Ruled.touched (hruled : Ruled db) (h : Touched db db') : Ruled db' where
  ranged := by
    intro v hv
    rw [h.polls, h.choices]
    exact hruled.ranged v (h.votes.subset hv)
  single := by
    intro id poll hpoll hmulti userId
    rw [h.polls] at hpoll
    have hle := hruled.single id poll hpoll hmulti userId
    have hsub := (h.votes.filter fun v => decide (v.messageId = id ∧ v.userId = userId)).length_le
    omega
  once := hruled.once.sublist (h.votes.map _)

end Touched

section Machine
variable {text : Text} {st st' : Server} {event : Event}

/-- What an event writes, if anything. -/
inductive Wrote (st : Server) : Event → Tables → Prop
  | nothing (event : Event) : Wrote st event st.db
  | asks {i : ℕ} {userId : UserId} {roomId : RoomId} {req : CreatePollRequest}
      {refusal : Option ApiError}
      {now : ℤ} (question : Body) (choices : List Body) :
      Wrote st (.ask i userId roomId req refusal now)
        (st.db.ask userId roomId question choices req.multi req.closesInDays now)
  | votes {i : ℕ} {userId : UserId} {id : MessageId} {picked : List ℕ} {now : ℤ}
      (h : (st.tasks[i]? : Option Task) = some (.voting userId id picked)) :
      Wrote st (.commit i now) (st.db.vote userId id picked now)
  | closes {i : ℕ} {id : MessageId} {by' : Option UserId} {poll : PollRow} {message : MessageRow}
      {now : ℤ}
      (h : st.db.open? id = some (poll, message)) :
      Wrote st (.commit i now) (st.db.close id by' poll message now)
  | deletes (id : MessageId) (now : ℤ) : Wrote st (.delete id now) (st.db.delete id now)
  | erases (userId : UserId) (now : ℤ) : Wrote st (.erase userId now) (st.db.erase userId now)

theorem respond_db (st : Server) (i : ℕ) (id : MessageId) :
    (st.respond i id).db = st.db ∧ (st.respond i id).tasks = st.tasks := by
  rw [Server.respond]
  split <;> exact ⟨rfl, rfl⟩

/-- A vote that waits to be written waited before, or was checked just now. -/
def Waits (st st' : Server) : Prop :=
  ∀ (i : ℕ) (userId : UserId) (id : MessageId) (picked : List ℕ),
    (st'.tasks[i]? : Option Task) = some (.voting userId id picked) →
      (st.tasks[i]? : Option Task) = some (.voting userId id picked) ∨
      ∃ unseen now, checkVote st.db id picked unseen now = .ok ()

theorem waits_same (h : st'.tasks = st.tasks) : Waits st st' := by
  intro i userId id picked hi
  rw [h] at hi
  exact .inl hi

theorem waits_goOn {i : ℕ} {task : Option Task} (h : st'.tasks = st.tasks.alter i fun _ => task)
    (htask : ∀ userId id picked, task = some (.voting userId id picked) →
      ∃ unseen now, checkVote st.db id picked unseen now = .ok ()) : Waits st st' := by
  intro j userId id picked hj
  rw [h, alter_at] at hj
  split at hj
  · exact .inr (htask userId id picked hj)
  · exact .inl hj

theorem next_ne {id : MessageId} {by' : Option UserId} {due : List MessageId} (userId : UserId)
    (id' : MessageId)
    (picked : List ℕ) : Task.next id by' due ≠ some (.voting userId id' picked) := by
  rw [Task.next.eq_def]
  split <;> simp

theorem begin_cases {i : ℕ} {task : Task} (h : st.begin i task = some st') :
    st' = st.goOn i (some task) := by
  rw [Server.begin] at h
  split at h
  · exact (Option.some.inj h).symm
  · cases h

theorem commit_wrote {i : ℕ} {now : ℤ} (h : st.commit i now = some st') :
    Wrote st (.commit i now) st'.db ∧ Waits st st' := by
  rw [Server.commit.eq_def] at h
  split at h
  · next userId id picked htask =>
    cases h
    exact ⟨.votes htask, waits_goOn rfl fun _ _ _ he => by cases he⟩
  · next id by' due htask =>
    split at h
    · next poll message hopen =>
      cases h
      exact ⟨.closes hopen, waits_goOn rfl fun _ _ _ he => by cases he⟩
    · cases h
      exact ⟨.nothing _, waits_goOn rfl fun _ _ _ he => absurd he (next_ne _ _ _)⟩
  · cases h

theorem tell_wrote {i : ℕ} (h : st.tell i = some st') : st'.db = st.db ∧ Waits st st' := by
  rw [Server.tell.eq_def] at h
  split at h
  · next id htask =>
    cases h
    obtain ⟨hdb, htasks⟩ := respond_db (st.publish false id) i id
    exact ⟨hdb, waits_goOn (congrArg (·.alter i fun _ => none) htasks) fun _ _ _ he => by cases he⟩
  · next id line by' due htask =>
    cases h
    exact ⟨rfl, waits_goOn rfl fun _ _ _ he => absurd he (next_ne _ _ _)⟩
  · next id htask =>
    cases h
    obtain ⟨hdb, htasks⟩ := respond_db st i id
    exact ⟨hdb, waits_goOn (congrArg (·.alter i fun _ => none) htasks) fun _ _ _ he => by cases he⟩
  · cases h

/-- What each event writes, and which votes wait to be written after it. -/
theorem advance_wrote (h : advance text st event = some st') :
    Wrote st event st'.db ∧ Waits st st' := by
  cases event with
  | ask i userId roomId req refusal now =>
    dsimp only [advance] at h
    split at h
    · cases h
      exact ⟨.nothing _, waits_same rfl⟩
    · cases h
      exact ⟨.nothing _, waits_same rfl⟩
    · next question choices _ =>
      cases h
      constructor
      · rw [(respond_db ..).1]
        exact .asks question choices
      · exact waits_same (respond_db ..).2
  | vote i userId id choices limited unseen now =>
    dsimp only [advance] at h
    split at h
    · cases h
      exact ⟨.nothing _, waits_same rfl⟩
    · split at h
      · cases h
        exact ⟨.nothing _, waits_same rfl⟩
      · next hchecked =>
        rw [begin_cases h]
        refine ⟨.nothing _, waits_goOn rfl fun _ _ _ he => ?_⟩
        cases he
        exact ⟨unseen, now, hchecked⟩
  | close i userId id unseen now =>
    dsimp only [advance] at h
    split at h
    · cases h
      exact ⟨.nothing _, waits_same rfl⟩
    · rw [begin_cases h]
      exact ⟨.nothing _, waits_goOn rfl fun _ _ _ he => by cases he⟩
  | closeDue i now =>
    dsimp only [advance] at h
    split at h
    · cases h
      exact ⟨.nothing _, waits_same rfl⟩
    · rw [begin_cases h]
      exact ⟨.nothing _, waits_goOn rfl fun _ _ _ he => by cases he⟩
  | commit i now => exact commit_wrote h
  | tell i =>
    obtain ⟨hdb, hwaits⟩ := tell_wrote h
    exact ⟨hdb ▸ .nothing _, hwaits⟩
  | drop i =>
    cases h
    exact ⟨.nothing _, waits_goOn rfl fun _ _ _ he => by cases he⟩
  | delete id now =>
    cases h
    exact ⟨.deletes id now, waits_same rfl⟩
  | erase userId now =>
    cases h
    exact ⟨.erases userId now, waits_same rfl⟩

/-- What the tables keep, and what the votes that wait were checked for. -/
structure Sound (st : Server) : Prop where
  kept : Kept st.db
  ruled : Ruled st.db
  checked : ∀ (i : ℕ) (userId : UserId) (id : MessageId) (picked : List ℕ),
    (st.tasks[i]? : Option Task) = some (.voting userId id picked) → Checked st.db id picked

theorem load_of_byId {db : Tables} {id : MessageId} {message : Message} {poll : Poll}
    (h : db.byId id = some message) (hpoll : message.poll = some poll) :
    db.load id = some poll := by
  obtain ⟨row, hrow, rfl⟩ := Option.map_eq_some_iff.mp h
  change (db.load id).or none = some poll at hpoll
  rw [Option.or_none] at hpoll
  exact hpoll

theorem openPoll_load {db : Tables} {id : MessageId} {unseen : Option ApiError} {now : ℤ}
    {message : Message}
    {poll : Poll} (h : openPoll db id unseen now = .ok (message, poll)) :
    db.load id = some poll := by
  rw [openPoll.eq_def] at h
  split at h
  · cases h
  · next found hfound =>
    split at h
    · cases h
    · split at h
      · cases h
      · split at h
        · cases h
        · next hpoll =>
          split at h
          · cases h
          · cases h
            exact load_of_byId hfound hpoll

theorem checkVote_checked {db : Tables} {id : MessageId} {picked : List ℕ}
    {unseen : Option ApiError} {now : ℤ}
    (hkept : Kept db) (h : checkVote db id picked unseen now = .ok ()) : Checked db id picked := by
  rw [checkVote.eq_def] at h
  split at h
  · cases h
  · next message poll hopen =>
    obtain ⟨row, hrow, -, hmulti, -, voters, -, hchoices⟩ :=
      load_choices (openPoll_load hopen) (hkept.places id)
    split at h
    · cases h
    · next hnodup =>
      split at h
      · cases h
      · next hsingle =>
        split at h
        · cases h
        · next hranged =>
          refine ⟨not_not.mp hnodup, row, hrow, fun hone => ?_, fun at' hat => ?_⟩
          · rw [← hmulti] at hone
            have hle : ¬ 1 < picked.length :=
              fun hlt => hsingle ⟨hlt, by rw [hone]; exact Bool.false_ne_true⟩
            omega
          · rw [hchoices, List.length_map] at hranged
            have hlt : ¬ (choicesOf db.choices id).length ≤ at' := fun hle => hranged (by
              rw [List.any_eq_true]
              exact ⟨at', hat, decide_eq_true hle⟩)
            omega

theorem Wrote.kept {db : Tables} (hwrote : Wrote st event db) (hsound : Sound st) :
    Later st.db db ∧ Kept db ∧ Ruled db := by
  obtain ⟨hkept, hruled, hchecked⟩ := hsound
  cases hwrote with
  | nothing => exact ⟨.refl _, hkept, hruled⟩
  | asks question choices => exact ⟨later_ask hkept, hkept.ask, hruled.ask hkept⟩
  | votes h => exact ⟨later_vote, hkept.vote, hruled.vote (hchecked _ _ _ _ h)⟩
  | closes h => exact ⟨later_close hkept h, hkept.close h, hruled.close h⟩
  | deletes id now =>
    exact ⟨touched_delete.later, hkept.touched touched_delete, hruled.touched touched_delete⟩
  | erases userId now =>
    exact ⟨touched_erase.later, hkept.touched touched_erase, hruled.touched touched_erase⟩

theorem Sound.advance (hsound : Sound st) (h : advance text st event = some st') :
    Sound st' ∧ Later st.db st'.db := by
  obtain ⟨hwrote, hwaits⟩ := advance_wrote h
  obtain ⟨hlater, hkept, hruled⟩ := hwrote.kept hsound
  refine ⟨⟨hkept, hruled, fun i userId id picked hi => ?_⟩, hlater⟩
  rcases hwaits i userId id picked hi with hbefore | ⟨unseen, now, hchecked⟩
  · exact (hsound.checked i userId id picked hbefore).later hlater
  · exact (checkVote_checked hsound.kept hchecked).later hlater

end Machine
end Linger.Polls
