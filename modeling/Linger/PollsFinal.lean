import Linger.PollsResult

/-! A closed poll's result is final, unless a vote that was checked before is written after. -/
namespace Linger.Polls
open FiniteMap StepMachine
open Linger.Messages (Body)
open Linger.Posts (ApiError closedWords)

/-- A vote is written while its poll isn't closed, or leaves its votes as they are: none before,
none now. -/
def Unraced (st : Server) : Event → Prop
  | .commit i _ =>
    match (st.tasks[i]? : Option Task) with
    | some (.voting userId id picked) =>
      match (st.db.polls[id]? : Option PollRow) with
      | some poll => poll.closedAt = none ∨
          picked = [] ∧ ∀ v ∈ st.db.votes, ¬ (v.messageId = id ∧ v.userId = userId)
      | none => True
    | _ => True
  | _ => True

instance (st : Server) (event : Event) : Decidable (Unraced st event) := by
  unfold Unraced
  split <;> (try split) <;> (try split) <;> infer_instance

/-- A closed line that is still there says how its poll came out. -/
def Said (db : Tables) : Prop :=
  ∀ (id line : MessageId) (poll : PollRow) (m : MessageRow), db.polls[id]? = some poll →
    db.messages[line]? = some m → m.pollClosed = some id → m.deletedAt = none →
    m.body = closedWords poll.question (winners db.choices db.votes id)

section Steps
variable {text : Text} {st st' : Server} {event : Event} {db : Tables} {id : MessageId}
  {poll : PollRow}

/-- Once closed, a poll's votes are what they were. -/
theorem Wrote.votes_stay (hwrote : Wrote st event db) (hok : Unraced st event)
    (hpoll : st.db.polls[id]? = some poll) (hclosed : poll.closedAt.isSome = true) :
    votesOf db.votes id = votesOf st.db.votes id := by
  cases hwrote with
  | nothing => rfl
  | asks question choices => rfl
  | closes h => rfl
  | deletes id now => rfl
  | votes h =>
    next i userId id' picked now =>
    change votesOf (_ ++ _) id = _
    rw [votesOf, List.filter_append]
    by_cases hid : id = id'
    · subst hid
      simp only [Unraced, h, hpoll] at hok
      have hnone : picked = [] ∧ ∀ v ∈ st.db.votes, ¬ (v.messageId = id ∧ v.userId = userId) := by
        refine hok.resolve_left fun hopen => ?_
        rw [hopen] at hclosed
        cases hclosed
      have hall :
          st.db.votes.filter (fun v => ¬ (v.messageId = id ∧ v.userId = userId)) = st.db.votes :=
        List.filter_eq_self.mpr fun v hv => decide_eq_true (hnone.2 v hv)
      rw [hnone.1, hall]
      simp [votesOf]
    · have hnew : ((picked.insertionSort (· ≤ ·)).map fun position =>
          (⟨id', position, userId, now⟩ : VoteRow)).filter (fun v => v.messageId = id) = [] := by
        rw [List.filter_eq_nil_iff]
        intro v hv
        obtain ⟨position, -, rfl⟩ := List.mem_map.mp hv
        simpa using fun heq : id' = id => hid heq.symm
      rw [hnew, List.append_nil, List.filter_filter, votesOf]
      refine List.filter_congr fun v _ => ?_
      by_cases hv : v.messageId = id
      · simp [hv, hid]
      · simp [hv]
  | erases userId now =>
    change votesOf (st.db.votes.filter _) id = _
    rw [votesOf, votesOf, List.filter_filter]
    refine List.filter_congr fun v _ => ?_
    by_cases hv : v.messageId = id
    · have hsome : poll.closedAt ≠ none := Option.isSome_iff_ne_none.mp hclosed
      simp [hv, hpoll, hsome]
    · simp [hv]

/-- The closing transaction counts the votes there are, and they stay. -/
theorem Said.wrote (hsaid : Said st.db) (hsound : Sound st) (hok : Unraced st event)
    (hwrote : Wrote st event db) : Said db := by
  obtain ⟨hlater, hkept, -⟩ := hwrote.kept hsound
  -- a line that was there before
  have hold {id line : MessageId} {poll : PollRow} {m : MessageRow} (hline : IsLine st.db id line)
      (hpoll : db.polls[id]? = some poll) (hm : db.messages[line]? = some m)
        (hdeleted : m.deletedAt = none) :
      m.body = closedWords poll.question (winners db.choices db.votes id) := by
    obtain ⟨before, hbefore, hclosed⟩ := hsound.kept.lines id line hline
    obtain ⟨m₀, hm₀, hm₀line⟩ := hline
    obtain ⟨after, hafter, -, -, hsame, hchoices⟩ := hlater.polls id before hbefore
    obtain ⟨m₁, hm₁, -, hkeep⟩ := hlater.messages line m₀ hm₀
    rw [hafter] at hpoll
    cases hpoll
    rw [hm₁] at hm
    cases hm
    rw [winners_congr hchoices (hwrote.votes_stay hok hbefore hclosed), hkeep hdeleted,
      hsame hclosed]
    exact hsaid id line before m₀ hbefore hm₀ hm₀line (hkeep hdeleted ▸ hdeleted)
  intro id line poll m hpoll hm hline hdeleted
  have hisLine : IsLine db id line := ⟨m, hm, hline⟩
  cases hwrote with
  | nothing => exact hsaid id line poll m hpoll hm hline hdeleted
  | asks question choices => exact hold ((isLine_ask hsound.kept).mp hisLine) hpoll hm hdeleted
  | votes h => exact hold hisLine hpoll hm hdeleted
  | deletes id now => exact hold (touched_delete.isLine.mp hisLine) hpoll hm hdeleted
  | erases userId now => exact hold (touched_erase.isLine.mp hisLine) hpoll hm hdeleted
  | closes h =>
    rcases (isLine_close hsound.kept).mp hisLine with hbefore | ⟨rfl, rfl⟩
    · exact hold hbefore hpoll hm hdeleted
    · rw [Tables.close, insert_at, if_pos rfl] at hm
      cases hm
      rw [poll_close, if_pos rfl] at hpoll
      cases hpoll
      rfl

/-- From `db` to `db'` a poll that is closed stays as it is: its row, its choices, its votes. -/
def Settled (db db' : Tables) : Prop :=
  ∀ (id : MessageId) (poll : PollRow), db.polls[id]? = some poll → poll.closedAt.isSome = true →
    db'.polls[id]? = some poll ∧ choicesOf db'.choices id = choicesOf db.choices id ∧
      votesOf db'.votes id = votesOf db.votes id

theorem Settled.refl (db : Tables) : Settled db db := fun _ _ h _ => ⟨h, rfl, rfl⟩

theorem Settled.trans {db db' db'' : Tables} (h : Settled db db') (h' : Settled db' db'') :
    Settled db db'' := by
  intro id poll hpoll hclosed
  obtain ⟨hpoll', hchoices, hvotes⟩ := h id poll hpoll hclosed
  obtain ⟨hpoll'', hchoices', hvotes'⟩ := h' id poll hpoll' hclosed
  exact ⟨hpoll'', hchoices'.trans hchoices, hvotes'.trans hvotes⟩

theorem Wrote.settled (hwrote : Wrote st event db) (hsound : Sound st) (hok : Unraced st event) :
    Settled st.db db := by
  intro id poll hpoll hclosed
  obtain ⟨hlater, -⟩ := hwrote.kept hsound
  obtain ⟨poll', hpoll', -, -, hsame, hchoices⟩ := hlater.polls id poll hpoll
  exact ⟨hsame hclosed ▸ hpoll', hchoices, hwrote.votes_stay hok hpoll hclosed⟩

/-- What every state of a run keeps in which no vote is late. -/
structure Final (st : Server) : Prop where
  sound : Sound st
  said : Said st.db

theorem Final.advance (h : Final st) (hok : Unraced st event)
    (hs : advance text st event = some st') :
    Final st' :=
  ⟨(h.sound.advance hs).1, h.said.wrote h.sound hok (advance_wrote hs).1⟩

theorem final_start : Final (machine text).start := by
  refine ⟨⟨⟨?_, ?_, ?_, ?_, ?_, ?_⟩, ⟨?_, ?_, ?_⟩, ?_⟩, ?_⟩ <;> simp [machine, IsLine, choicesOf,
    Said]

theorem settled_run {events : List Event} (h : Final st)
    (hm : (machine text).MeetsFrom Unraced st events)
    (hr : (machine text).runFrom st events = some st') : Final st' ∧ Settled st.db st'.db := by
  apply (machine text).keeps_from (I := fun st' => Final st' ∧
    Settled st.db st'.db) ?_ ⟨h, .refl _⟩ hm hr
  intro s event t hs hok ht
  have hwrote := (advance_wrote ht).1
  exact ⟨hs.1.advance hok ht, hs.2.trans (hwrote.settled hs.1.sound hok)⟩

end Steps

/-- Sound, whatever votes are late. -/
theorem sound_run {text : Text} {st : Server} {events : List Event}
    (hr : (machine text).run events = some st) : Sound st :=
  (machine text).invariant (I := Sound) final_start.sound (fun _ _ _ h hs => (h.advance hs).1)
    ⟨events, hr⟩

section Result
variable {text : Text} {s t₁ t₂ t₃ : Server} {events m₁ m₂ m₃ : List Event}

/-- A poll as it ended in `s`, and as it is read from then on, its three tables at `t₁`, `t₂` and
`t₃`: closed as it was, with its one line and the votes it had, and the winners in the line's words
are those that are read. -/
def Stands (s t₁ t₂ t₃ : Tables) : Prop :=
  ∀ (id : MessageId) (poll : PollRow), s.polls[id]? = some poll → poll.closedAt.isSome = true →
    t₃.polls[id]? = some poll ∧ votesOf t₃.votes id = votesOf s.votes id ∧
    (∃ line, ∀ line', IsLine t₃ id line' ↔ line' = line) ∧
    ∃ said,
      (∀ (line : MessageId) (m : MessageRow), t₃.messages[line]? = some m → m.pollClosed = some id →
        m.deletedAt = none → m.body = closedWords poll.question said) ∧
      ∀ asked message line, message.pollClosed = some line → line.pollId = id →
        (hydrate asked (load t₁.polls t₂.choices t₃.votes) message).pollClosed =
          some ⟨id, poll.question, said⟩

/-- In every run in which no vote is written after its poll closed, a closed poll's result stands;
and in every run only a closed poll has a line, and the votes keep the poll's rules. -/
theorem result_stands (hs : (machine text).run events = some s)
    (h₁ : (machine text).runFrom s m₁ = some t₁)
    (h₂ : (machine text).runFrom t₁ m₂ = some t₂) (h₃ : (machine text).runFrom t₂ m₃ = some t₃) :
    Ruled s.db ∧ (∀ id line, IsLine s.db id line →
      ∃ poll, (s.db.polls[id]? : Option PollRow) = some poll ∧ poll.closedAt.isSome = true) ∧
    ((machine text).Meets Unraced (events ++ (m₁ ++ (m₂ ++ m₃))) →
      Stands s.db t₁.db t₂.db t₃.db) := by
  have hsound : Sound s := sound_run hs
  refine ⟨hsound.ruled, hsound.kept.lines, fun hmeets => ?_⟩
  have hsplit := ((machine text).meetsFrom_append Unraced (machine text).start events _).mp hmeets
  have hfinal := (settled_run final_start hsplit.1 hs).1
  have hmeets₁ := ((machine text).meetsFrom_append Unraced s m₁ _).mp (hsplit.2 s hs)
  have hmeets₂ := ((machine text).meetsFrom_append Unraced t₁ m₂ _).mp (hmeets₁.2 t₁ h₁)
  obtain ⟨hfinal₁, hsettled₁⟩ := settled_run hfinal hmeets₁.1 h₁
  obtain ⟨hfinal₂, hsettled₂⟩ := settled_run hfinal₁ hmeets₂.1 h₂
  obtain ⟨hfinal₃, hsettled₃⟩ := settled_run hfinal₂ (hmeets₂.2 t₂ h₂) h₃
  intro id poll hpoll hclosed
  obtain ⟨hpoll₁, -, -⟩ := hsettled₁ id poll hpoll hclosed
  obtain ⟨-, hchoices₂, -⟩ := (hsettled₁.trans hsettled₂) id poll hpoll hclosed
  obtain ⟨hpoll₃, hchoices₃, hvotes₃⟩ :=
    ((hsettled₁.trans hsettled₂).trans hsettled₃) id poll hpoll hclosed
  refine ⟨hpoll₃, hvotes₃, hfinal₃.sound.kept.one id poll hpoll₃ hclosed,
    winners s.db.choices s.db.votes id, ?_, ?_⟩
  · intro line m hm hline hdeleted
    rw [hfinal₃.said id line poll m hpoll₃ hm hline hdeleted, winners_congr hchoices₃ hvotes₃]
  · intro asked message line hline hid
    have hplaces : (choicesOf t₂.db.choices id).map ChoiceRow.position =
        List.range (choicesOf t₂.db.choices id).length := hfinal₂.sound.kept.places id
    cases hload : load t₁.db.polls t₂.db.choices t₃.db.votes id with
    | none =>
      rw [load, hpoll₁] at hload
      cases hload
    | some loaded =>
      obtain ⟨row, hrow, hquestion, -⟩ := load_choices hload hplaces
      rw [hpoll₁] at hrow
      cases hrow
      have hwinners := (winners_loaded hload hplaces).trans (winners_congr hchoices₂ hvotes₃)
      rw [hydrate]
      simp only [hline, Option.map_some, hid, hload, hquestion, hwinners]

end Result

section Examples

/-- Words without marks, blanks or capitals to take away. -/
def plain : Text := ⟨id, id, id⟩

def asking : List Event :=
  [.ask 0 1 1 { question := "Which?".toList, choices := ["A".toList, "B".toList], multi := false
                closesInDays := 7 } none 1000]

/-- Two people vote and the asker closes; then a third tries to. -/
def closing : List Event :=
  [.vote 1 2 0 [1] false none 2000, .vote 2 3 0 [0] false none 2001, .commit 1 2002, .tell 1,
    .commit 2 2003, .vote 3 3 0 [1] false none 2004, .commit 3 2005, .close 4 1 0 none 3000,
    .commit 4 3001]

def after : List Event := [.tell 4, .vote 5 2 0 [0] false none 4000, .delete 0 5000]

theorem result_stands_closed :
    ∃ s t₁ t₂ t₃, (machine plain).run (asking ++ closing) = some s ∧
      (machine plain).runFrom s [] = some t₁ ∧ (machine plain).runFrom t₁ after = some t₂ ∧
      (machine plain).runFrom t₂ [] = some t₃ ∧
      ((s.db.polls[0]? : Option PollRow).map fun poll => poll.closedAt) = some (some 3001) ∧
      winners s.db.choices s.db.votes 0 = ["B".toList] ∧ Stands s.db t₁.db t₂.db t₃.db :=
  ⟨_, _, _, _, rfl, rfl, rfl, rfl, by decide +kernel, by decide +kernel,
    (@result_stands plain _ _ _ _ (asking ++ closing) [] after [] rfl rfl rfl rfl).2.2
      (by decide +kernel)⟩

/-- A vote that was checked before the poll closed is written after: the line says nobody voted, and
is shown with a winner. -/
theorem late_vote_shown : ∃ s t, (machine plain).run (asking ++
      [.vote 1 2 0 [1] false none 2000, .close 2 1 0 none 3000, .commit 2 3001, .tell 2]) = some s ∧
    (machine plain).runFrom s [.commit 1 3002] = some t ∧
    ((s.db.polls[0]? : Option PollRow).map fun poll => poll.closedAt) = some (some 3001) ∧
    votesOf s.db.votes 0 = [] ∧ votesOf t.db.votes 0 = [⟨0, 1, 2, 3002⟩] ∧
    ((t.db.byId 1).map fun line => (line.body, line.pollClosed)) =
      some (closedWords "Which?".toList [], some ⟨0, "Which?".toList, ["B".toList]⟩) := by
  exact ⟨_, _, rfl, rfl, by decide +kernel, by decide +kernel, by decide +kernel, by decide +kernel⟩

end Examples
end Linger.Polls
