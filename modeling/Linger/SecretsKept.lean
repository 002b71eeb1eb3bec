import Linger.Secrets

/-! A sign-in the keyring took stays there, whatever is saved or forgotten of other servers and
whatever calls fail, until a save writes the list of servers without having read it. -/
namespace Linger.Secrets

variable {json : Json} {ns : Text} {held held' : Text → Option Text} {session : StoredSession}
  {url : Text} {k : Keyring} {calls : List Call} {op : Op} {ops : List Op}

theorem serverAccount_ne_index (ns url : Text) : serverAccount ns url ≠ indexAccount ns := by
  intro h
  have htail := List.append_cancel_left h
  simp at htail

theorem legacyAccount_ne_server (ns url : Text) : legacyAccount ns ≠ serverAccount ns url := by
  intro h
  have hnil : [] = "-server:".toList ++ url :=
    List.append_cancel_left ((List.append_nil ns).trans h)
  simp at hnil

theorem legacyAccount_ne_index (ns : Text) : legacyAccount ns ≠ indexAccount ns := by
  intro h
  have hnil : [] = "-servers".toList := List.append_cancel_left ((List.append_nil ns).trans h)
  simp at hnil

theorem serverAccount_inj {other : Text} (h : serverAccount ns url = serverAccount ns other) :
    url = other :=
  List.append_cancel_left (List.append_cancel_left h)

/-- The servers the keyring lists. -/
def listed (json : Json) (ns : Text) (held : Text → Option Text) : List Text :=
  match held (indexAccount ns) with
  | some text => (json.readList text).getD []
  | none => []

theorem listed_of_some {text : Text} {urls : List Text} (hat : held (indexAccount ns) = some text)
    (hread : json.readList text = some urls) : listed json ns held = urls := by
  rw [listed, hat]
  exact congrArg (Option.getD · []) hread

theorem listed_congr (h : held' (indexAccount ns) = held (indexAccount ns)) :
    listed json ns held' = listed json ns held := by
  rw [listed, listed, h]

@[simp] theorem read_snd (account : Text) (k : Keyring) : (read account k).2 = k.next := by
  unfold read
  split
  · rfl
  · split
    · rfl
    · rfl

theorem index_eq (json : Json) (ns : Text) (k : Keyring) :
    index json ns k = (if k.call = .works then listed json ns k.held else [], k.next) := by
  unfold index read listed
  cases k.call with
  | fails reason took => rfl
  | works => cases k.held (indexAccount ns) with
    | none => rfl
    | some text => rfl

/-- What one call to store or delete does: it is done, or nothing is, and where it answers that
it is done it is. -/
theorem put_held (account : Text) (value : Option Text) (k : Keyring) :
    (put account value k).2.held = if k.call.takes then Function.update k.held account value
    else k.held := by
  unfold put
  split
  · rfl
  · rfl

theorem put_of_ne {account other : Text} (value : Option Text) (k : Keyring) (h : other ≠ account) :
    (put account value k).2.held other = k.held other := by
  rw [put_held]
  split
  · exact Function.update_of_ne h ..
  · rfl

theorem put_at (account : Text) (value : Option Text) (k : Keyring) :
    (put account value k).2.held account = k.held account ∨
    (put account value k).2.held account = value := by
  rw [put_held]
  split
  · exact .inr (Function.update_self ..)
  · exact .inl rfl

theorem put_calls (account : Text) (value : Option Text) (k : Keyring) :
    (put account value k).2.calls = k.calls.tail := by
  unfold put
  split
  · rfl
  · rfl

theorem put_done {account : Text} {value : Option Text} (hdone : (put account value k).1 = .done) :
    k.call = .works := by
  cases hcall : k.call with
  | works => rfl
  | fails reason took =>
    rw [put, hcall] at hdone
    cases hdone

theorem takes_of_done {call : Call} (h : call.answer = .done) : call.takes = true := by
  cases call with
  | works => rfl
  | fails reason took => cases h

theorem putIndex_cases (json : Json) (ns : Text) (urls : List Text) (k : Keyring) :
    (putIndex json ns urls k).2.held = k.held ∧ (putIndex json ns urls k).1 ≠ .done ∧
        ¬((∃ text, json.listText urls = .ok text) ∧ k.call.takes = true) ∨
      ∃ text, json.listText urls = .ok text ∧ k.call.takes = true ∧
        (putIndex json ns urls k).2.held =
          Function.update k.held (indexAccount ns) (some text) := by
  unfold putIndex write
  cases htext : json.listText urls with
  | error err =>
    left
    refine ⟨rfl, by simp, ?_⟩
    rintro ⟨⟨text, htext'⟩, -⟩
    cases htext'
  | ok text =>
    dsimp only
    rw [put_held]
    cases htakes : k.call.takes with
    | false =>
      left
      refine ⟨rfl, fun hdone => ?_, fun h => Bool.noConfusion h.2⟩
      rw [takes_of_done hdone] at htakes
      cases htakes
    | true => exact .inr ⟨text, rfl, rfl, rfl⟩

/-- The second half of a save: the server is put on the list, if it isn't there. -/
def addListed (json : Json) (ns url : Text) (k : Keyring) : SessionWrite × Keyring :=
  let urls := index json ns k
  if urls.1.any (· == url) then (.done, urls.2) else putIndex json ns (urls.1 ++ [url]) urls.2

theorem saveIn_eq (json : Json) (ns : Text) (session : StoredSession) (k : Keyring) {text : Text}
    (htext : json.sessionText session = .ok text) :
    saveIn json ns session k =
      if k.call = .works then
        addListed json ns session.baseUrl (write (serverAccount ns session.baseUrl) text k).2
      else write (serverAccount ns session.baseUrl) text k := by
  rw [saveIn, htext]
  dsimp only
  unfold write put
  cases k.call with
  | works => rfl
  | fails reason took => rfl

theorem addListed_others (k : Keyring) {account : Text} (h : account ≠ indexAccount ns) :
    (addListed json ns url k).2.held account = k.held account := by
  unfold addListed
  rw [index_eq]
  dsimp only
  generalize (if k.call = .works then listed json ns k.held else []) = urls
  split
  · rfl
  · rcases putIndex_cases json ns (urls ++ [url]) k.next with ⟨hheld, -⟩ | ⟨text, -, -, hheld⟩
    · rw [hheld]
      rfl
    · rw [hheld, Function.update_of_ne h]
      rfl

/-- With the list read, it stays as it was or gains the server at its end. -/
theorem addListed_read (json : Json) (ns url : Text) (k : Keyring) (hcall : k.call = .works) :
    (addListed json ns url k).2.held (indexAccount ns) = k.held (indexAccount ns) ∨
      ∃ text, json.listText (listed json ns k.held ++ [url]) = .ok text ∧
        (addListed json ns url k).2.held (indexAccount ns) = some text ∧
        url ∉ listed json ns k.held := by
  unfold addListed
  rw [index_eq, if_pos hcall]
  dsimp only
  split
  · exact .inl rfl
  · next hnew =>
    rcases putIndex_cases json ns (listed json ns k.held ++ [url]) k.next with
      ⟨hheld, -⟩ | ⟨text, htext, -, hheld⟩
    · left
      rw [hheld]
      rfl
    · right
      refine ⟨text, htext, by rw [hheld, Function.update_self], fun hmem => hnew ?_⟩
      rw [List.any_eq_true]
      exact ⟨url, hmem, beq_self_eq_true url⟩

/-- Without it, the list is the server alone, where it is written. -/
theorem addListed_unread (k : Keyring) (hcall : k.call ≠ .works) :
    (¬((∃ text, json.listText [url] = .ok text) ∧ k.next.call.takes = true) →
      (addListed json ns url k).2.held = k.held) ∧
    ((∃ text, json.listText [url] = .ok text) ∧ k.next.call.takes = true →
      ∃ text, json.listText [url] = .ok text ∧
        (addListed json ns url k).2.held (indexAccount ns) = some text) := by
  unfold addListed
  rw [index_eq, if_neg hcall]
  simp only [List.any_nil, Bool.false_eq_true, if_false, List.nil_append]
  rcases putIndex_cases json ns [url] k.next with ⟨hheld, -, hnot⟩ | ⟨text, htext, htakes, hheld⟩
  · exact ⟨fun _ => hheld, fun h => absurd h hnot⟩
  · exact ⟨fun h => absurd ⟨⟨text, htext⟩, htakes⟩ h,
      fun _ => ⟨text, htext, by rw [hheld, Function.update_self]⟩⟩

/-- Where it answers that it is done, the server is on the list. -/
theorem addListed_done (hjson : json.Faithful) (k : Keyring)
    (hdone : (addListed json ns url k).1 = .done) :
    url ∈ listed json ns (addListed json ns url k).2.held := by
  unfold addListed at hdone ⊢
  rw [index_eq] at hdone ⊢
  dsimp only at hdone ⊢
  generalize hurls : (if k.call = .works then listed json ns k.held else []) = urls at hdone ⊢
  split at hdone
  · next hany =>
    rw [if_pos hany]
    obtain ⟨other, hmem, heq⟩ := List.any_eq_true.mp hany
    rw [beq_iff_eq.mp heq, ← hurls] at hmem
    split at hmem
    · exact hmem
    · cases hmem
  · next hany =>
    rw [if_neg hany]
    rcases putIndex_cases json ns (urls ++ [url]) k.next with ⟨-, hnot, -⟩ | ⟨text, htext, -, hheld⟩
    · exact absurd hdone hnot
    · rw [hheld, listed_of_some (Function.update_self ..) (hjson.list _ _ htext)]
      exact List.mem_append_right _ (List.mem_singleton_self _)

/-- What a save does: its own entry and the list of servers are all it may write. -/
structure Saves (json : Json) (ns : Text) (session : StoredSession) (overwrites : Bool)
    (held held' : Text → Option Text) : Prop where
  others : ∀ account, account ≠ serverAccount ns session.baseUrl → account ≠ indexAccount ns →
    held' account = held account
  entry : held' (serverAccount ns session.baseUrl) = held (serverAccount ns session.baseUrl) ∨
    ∃ text, json.sessionText session = .ok text ∧
      held' (serverAccount ns session.baseUrl) = some text
  list : overwrites = false → held' (indexAccount ns) = held (indexAccount ns) ∨
    ∃ text, json.listText (listed json ns held ++ [session.baseUrl]) = .ok text ∧
      held' (indexAccount ns) = some text ∧ session.baseUrl ∉ listed json ns held
  alone : overwrites = true →
    ∃ text, json.listText [session.baseUrl] = .ok text ∧ held' (indexAccount ns) = some text

theorem overwrites_save {text : Text} (htext : json.sessionText session = .ok text)
    (calls : List Call) :
    (Op.save session calls).overwrites json = true ↔
      calls.headD .works = .works ∧ calls.tail.headD .works ≠ .works ∧
        (∃ text, json.listText [session.baseUrl] = .ok text) ∧
        (calls.tail.tail.headD .works).takes = true := by
  rw [Op.overwrites, htext]
  cases json.listText [session.baseUrl] with
  | error err => simp
  | ok text' => simp [and_assoc]

theorem saves_saveIn (json : Json) (ns : Text) (session : StoredSession) (held : Text → Option Text)
    (calls : List Call) :
    Saves json ns session ((Op.save session calls).overwrites json) held
      (saveIn json ns session ⟨held, calls⟩).2.held := by
  cases htext : json.sessionText session with
  | error err =>
    have hover : (Op.save session calls).overwrites json = false := by
      rw [Op.overwrites, htext]
      rfl
    rw [saveIn, htext, hover]
    exact ⟨fun _ _ _ => rfl, .inl rfl, fun _ => .inl rfl, fun h => Bool.noConfusion h⟩
  | ok text =>
    have hover := overwrites_save htext calls
    rw [saveIn_eq json ns session _ htext]
    generalize hk : (write (serverAccount ns session.baseUrl) text ⟨held, calls⟩).2 = k
    have hothers : ∀ account, account ≠ serverAccount ns session.baseUrl →
        k.held account = held account := by
      intro account haccount
      rw [← hk]
      exact put_of_ne _ _ haccount
    have hindex := hothers _ (serverAccount_ne_index ns session.baseUrl).symm
    have hentry :
        k.held (serverAccount ns session.baseUrl) = held (serverAccount ns session.baseUrl) ∨
        k.held (serverAccount ns session.baseUrl) = some text := hk ▸ put_at _ _ _
    split
    · next hfirst =>
      -- the token is in: the list is next
      have hcalls : k.calls = calls.tail := hk ▸ put_calls _ _ _
      have hlisted : listed json ns k.held = listed json ns held := listed_congr hindex
      have hentry' :
          (addListed json ns session.baseUrl k).2.held (serverAccount ns session.baseUrl) =
          k.held (serverAccount ns session.baseUrl) :=
            addListed_others k (serverAccount_ne_index ns _)
      refine ⟨fun account hserver hlist => ?_, ?_, fun hnot => ?_, fun hyes => ?_⟩
      · rw [addListed_others k hlist, hothers account hserver]
      · rw [hentry']
        exact hentry.imp_right fun h => ⟨text, htext, h⟩
      · by_cases hcall : k.call = .works
        · have hread := addListed_read json ns session.baseUrl k hcall
          rw [hlisted, hindex] at hread
          exact hread
        · left
          rw [(addListed_unread k hcall).1, hindex]
          intro ⟨hlist, htakes⟩
          rw [hover.mpr ⟨hfirst, hcalls ▸ hcall, hlist, ?_⟩] at hnot
          · cases hnot
          · rw [← hcalls]
            exact htakes
      · obtain ⟨-, hcall, hlist, htakes⟩ := hover.mp hyes
        rw [← hcalls] at hcall htakes
        exact (addListed_unread k hcall).2 ⟨hlist, htakes⟩
    · next hfirst =>
      have hnever : (Op.save session calls).overwrites json = false := by
        rw [← Bool.not_eq_true, hover]
        exact fun h => hfirst h.1
      rw [hnever, hk]
      exact ⟨fun account hserver _ => hothers account hserver,
        hentry.imp_right fun h => ⟨text, htext, h⟩,
        fun _ => .inl hindex, fun h => Bool.noConfusion h⟩

/-- A save that is done: its token is in, and its server is on the list. -/
theorem saveIn_done (hjson : json.Faithful) (hdone : (saveIn json ns session k).1 = .done) :
    session.baseUrl ∈ listed json ns (saveIn json ns session k).2.held ∧
      ∃ text, (saveIn json ns session k).2.held (serverAccount ns session.baseUrl) = some text ∧
        json.readSession text = some session := by
  cases htext : json.sessionText session with
  | error err =>
    rw [saveIn, htext] at hdone
    cases hdone
  | ok text =>
    rw [saveIn_eq json ns session k htext] at hdone ⊢
    split at hdone
    · next hcall =>
      rw [if_pos hcall]
      refine ⟨addListed_done hjson _ hdone, text, ?_, hjson.session _ _ htext⟩
      rw [addListed_others _ (serverAccount_ne_index ns _), write, put_held, hcall]
      exact Function.update_self ..
    · next hcall => exact absurd (put_done hdone) hcall

/-- What forgetting a server does: its entry goes or stays, and the list is as it was or
without it. -/
structure Forgets (json : Json) (ns url : Text) (held held' : Text → Option Text) : Prop where
  others : ∀ account, account ≠ serverAccount ns url → account ≠ indexAccount ns →
    held' account = held account
  entry : held' (serverAccount ns url) = held (serverAccount ns url) ∨
    held' (serverAccount ns url) = none
  list : held' (indexAccount ns) = held (indexAccount ns) ∨
    (∃ text, json.listText ((listed json ns held).filter (· != url)) = .ok text ∧
      held' (indexAccount ns) = some text) ∨
      (∀ other ∈ listed json ns held, other = url) ∧ held' (indexAccount ns) = none

/-- The second half of forgetting a server: it is taken off the list. -/
def dropListed (json : Json) (ns url : Text) (k : Keyring) : SessionWrite × Keyring :=
  let urls := index json ns k
  let kept := urls.1.filter (· != url)
  if kept.length == urls.1.length then (.done, urls.2)
  else if kept.isEmpty then delete (indexAccount ns) urls.2
  else putIndex json ns kept urls.2

theorem forgetIn_eq (json : Json) (ns url : Text) (k : Keyring) :
    forgetIn json ns url k =
      if k.call = .works then dropListed json ns url (delete (serverAccount ns url) k).2
      else delete (serverAccount ns url) k := by
  unfold forgetIn delete put
  cases k.call with
  | works => rfl
  | fails reason took => rfl

theorem dropListed_others (k : Keyring) {account : Text} (h : account ≠ indexAccount ns) :
    (dropListed json ns url k).2.held account = k.held account := by
  unfold dropListed
  rw [index_eq]
  dsimp only
  generalize (if k.call = .works then listed json ns k.held else []) = urls
  split
  · rfl
  · split
    · exact put_of_ne none k.next h
    · rcases putIndex_cases json ns (urls.filter (· != url)) k.next with
        ⟨hheld, -⟩ | ⟨text, -, -, hheld⟩
      · rw [hheld]
        rfl
      · rw [hheld, Function.update_of_ne h]
        rfl

theorem dropListed_list (json : Json) (ns url : Text) (k : Keyring) :
    (dropListed json ns url k).2.held (indexAccount ns) = k.held (indexAccount ns) ∨
      (∃ text, json.listText ((listed json ns k.held).filter (· != url)) = .ok text ∧
        (dropListed json ns url k).2.held (indexAccount ns) = some text) ∨
      (∀ other ∈ listed json ns k.held, other = url) ∧
        (dropListed json ns url k).2.held (indexAccount ns) = none := by
  unfold dropListed
  rw [index_eq]
  dsimp only
  by_cases hcall : k.call = .works
  · rw [if_pos hcall]
    split
    · exact .inl rfl
    · split
      · next hempty =>
        rw [delete, put_held]
        split
        · refine .inr (.inr ⟨fun other hmem => ?_, Function.update_self ..⟩)
          by_contra hne
          have hkept : other ∈ (listed json ns k.held).filter (· != url) :=
            List.mem_filter.mpr ⟨hmem, by simpa using hne⟩
          rw [List.isEmpty_iff.mp hempty] at hkept
          cases hkept
        · exact .inl rfl
      · rcases putIndex_cases json ns ((listed json ns k.held).filter (· != url)) k.next with
          ⟨hheld, -⟩ | ⟨text, htext, -, hheld⟩
        · left
          rw [hheld]
          rfl
        · exact .inr (.inl ⟨text, htext, by rw [hheld, Function.update_self]⟩)
  · -- a list that cannot be read is left alone
    rw [if_neg hcall]
    exact .inl rfl

theorem forgets_forgetIn (json : Json) (ns url : Text) (held : Text → Option Text)
    (calls : List Call) :
    Forgets json ns url held (forgetIn json ns url ⟨held, calls⟩).2.held := by
  rw [forgetIn_eq]
  generalize hk : (delete (serverAccount ns url) ⟨held, calls⟩).2 = k
  have hothers : ∀ account, account ≠ serverAccount ns url → k.held account = held account := by
    intro account haccount
    rw [← hk]
    exact put_of_ne _ _ haccount
  have hindex := hothers _ (serverAccount_ne_index ns url).symm
  have hentry : k.held (serverAccount ns url) = held (serverAccount ns url) ∨
      k.held (serverAccount ns url) = none :=
    hk ▸ put_at _ _ _
  split
  · refine ⟨fun account hserver hlist => ?_, ?_, ?_⟩
    · rw [dropListed_others k hlist, hothers account hserver]
    · rw [dropListed_others k (serverAccount_ne_index ns _)]
      exact hentry
    · have hlist := dropListed_list json ns url k
      rw [listed_congr hindex, hindex] at hlist
      exact hlist
  · rw [hk]
    exact ⟨fun account hserver _ => hothers account hserver, hentry, .inl hindex⟩

/-- A server that is forgotten has no entry. -/
theorem forgetIn_done (hdone : (forgetIn json ns url k).1 = .done) :
    (forgetIn json ns url k).2.held (serverAccount ns url) = none := by
  rw [forgetIn_eq] at hdone ⊢
  split at hdone
  · next hcall =>
    rw [if_pos hcall, dropListed_others _ (serverAccount_ne_index ns _), delete, put_held, hcall]
    exact Function.update_self ..
  · next hcall => exact absurd (put_done hdone) hcall

theorem readSessions_held (urls : List Text) (k : Keyring) :
    (readSessions json ns urls k).2.held = k.held := by
  induction urls generalizing k with
  | nil => rfl
  | cons url urls ih =>
    rw [readSessions]
    split
    · next text k' hread =>
      have hk : k' = k.next := by rw [← read_snd (serverAccount ns url) k, hread]
      dsimp only
      split
      · rw [ih, hk]
        rfl
      · rw [ih, hk]
        rfl
    · next k' _ hread =>
      have hk : k' = k.next := by rw [← read_snd (serverAccount ns url) k, hread]
      rw [ih, hk]
      rfl

/-- What a load changes: nothing, unless it finds no list and a sign-in of an older build. -/
theorem loadIn_held (json : Json) (ns : Text) (held : Text → Option Text) (calls : List Call) :
    (loadIn json ns ⟨held, calls⟩).2.held = held ∨
      held (indexAccount ns) = none ∧ ∃ text old calls',
        held (legacyAccount ns) = some text ∧ json.readSession text = some old ∧
        ((loadIn json ns ⟨held, calls⟩).2.held = (saveIn json ns old ⟨held, calls'⟩).2.held ∨
          (loadIn json ns ⟨held, calls⟩).2.held =
            Function.update (saveIn json ns old ⟨held, calls'⟩).2.held
              (legacyAccount ns) none) := by
  generalize hk : (⟨held, calls⟩ : Keyring) = k
  have hheld : k.held = held := by rw [← hk]
  rw [← hheld]
  unfold loadIn read
  cases hcall : k.call with
  | fails reason took => exact .inl rfl
  | works =>
    cases hindex : k.held (indexAccount ns) with
    | some text =>
      left
      dsimp only
      split
      · exact readSessions_held _ _
      · exact readSessions_held _ _
    | none =>
      dsimp only
      unfold adoptLegacy read
      cases hcall' : k.next.call with
      | fails reason took => exact .inl rfl
      | works =>
        cases hlegacy : k.next.held (legacyAccount ns) with
        | none => exact .inl rfl
        | some text =>
          dsimp only
          cases hold : json.readSession text with
          | none => exact .inl rfl
          | some old =>
            right
            refine ⟨rfl, text, old, k.next.next.calls, hlegacy, hold, ?_⟩
            dsimp only
            rw [delete, put_held]
            split
            · exact .inr rfl
            · exact .inl rfl

/-- The next start gets this session: its server is listed, and its entry is there. -/
def Kept (json : Json) (ns : Text) (held : Text → Option Text) (session : StoredSession) : Prop :=
  session.baseUrl ∈ listed json ns held ∧
    ∃ text, held (serverAccount ns session.baseUrl) = some text ∧
    json.readSession text = some session

theorem ne_of_not_about {other : StoredSession} (h : (Op.save other calls).about url = false) :
    other.baseUrl ≠ url := by
  intro heq
  rw [Op.about, heq, beq_self_eq_true] at h
  cases h

/-- An operation on other servers keeps a sign-in, unless it writes the list without having
read it. -/
theorem kept_apply (hjson : json.Faithful) (hkept : Kept json ns held session)
    (hother : op.about session.baseUrl = false) :
    Kept json ns (op.apply json ns held) session ↔ op.overwrites json = false := by
  obtain ⟨hlisted, hentry⟩ := hkept
  cases op with
  | save other calls =>
    have hne := ne_of_not_about hother
    have hsaves := saves_saveIn json ns other held calls
    have hsame : (Op.save other calls).apply json ns held (serverAccount ns session.baseUrl) =
        held (serverAccount ns session.baseUrl) :=
      hsaves.others _ (fun h => hne (serverAccount_inj h).symm) (serverAccount_ne_index ns _)
    -- A save that could not read the list writes one with its own server alone.
    cases hover : (Op.save other calls).overwrites json with
    | true =>
      refine iff_of_false (fun hkept => ?_) (by simp)
      obtain ⟨text, htext, hindex⟩ := hsaves.alone hover
      have hlist := hkept.1
      rw [Op.apply, listed_of_some hindex (hjson.list _ _ htext), List.mem_singleton] at hlist
      exact hne hlist.symm
    | false =>
      refine iff_of_true ⟨?_, hsame ▸ hentry⟩ rfl
      rcases hsaves.list hover with hindex | ⟨text, htext, hindex, -⟩
      · rw [Op.apply, listed_congr hindex]
        exact hlisted
      · rw [Op.apply, listed_of_some hindex (hjson.list _ _ htext)]
        exact List.mem_append_left _ hlisted
  | forget url calls =>
    have hne : url ≠ session.baseUrl := by simpa [Op.about] using hother
    have hforgets := forgets_forgetIn json ns url held calls
    refine iff_of_true ⟨?_, ?_⟩ rfl
    · rcases hforgets.list with hindex | ⟨text, htext, hindex⟩ | ⟨hall, -⟩
      · rw [Op.apply, listed_congr hindex]
        exact hlisted
      · rw [Op.apply, listed_of_some hindex (hjson.list _ _ htext)]
        exact List.mem_filter.mpr ⟨hlisted, by simpa using hne.symm⟩
      · exact absurd (hall _ hlisted).symm hne
    · rw [Op.apply,
        hforgets.others _ (fun h => hne (serverAccount_inj h).symm) (serverAccount_ne_index ns _)]
      exact hentry
  | load calls =>
    refine iff_of_true ?_ rfl
    rcases loadIn_held json ns held calls with hheld | ⟨hindex, -⟩
    · rw [Op.apply, hheld]
      exact ⟨hlisted, hentry⟩
    · -- there is a list: nothing of an older build is looked for
      rw [listed, hindex] at hlisted
      cases hlisted

/-- A save writes the list only once its own entry is in. -/
theorem saveIn_listed (json : Json) (ns : Text) (old : StoredSession) (k : Keyring) :
    (saveIn json ns old k).2.held (indexAccount ns) = k.held (indexAccount ns) ∨
      ∃ text, json.sessionText old = .ok text ∧
        (saveIn json ns old k).2.held (serverAccount ns old.baseUrl) = some text := by
  cases htext : json.sessionText old with
  | error err =>
    rw [saveIn, htext]
    exact .inl rfl
  | ok text =>
    rw [saveIn_eq json ns old k htext]
    split
    · next hcall =>
      refine .inr ⟨text, rfl, ?_⟩
      rw [addListed_others _ (serverAccount_ne_index ns _), write, put_held, hcall]
      exact Function.update_self ..
    · exact .inl (put_of_ne _ _ (serverAccount_ne_index ns _).symm)

/-- A session that is not kept is not kept after another one is saved. -/
theorem lost_saveIn (hjson : json.Faithful) (hlost : ¬ Kept json ns held session)
    {old : StoredSession}
    (hold : old ≠ session) : ¬ Kept json ns (saveIn json ns old ⟨held, calls⟩).2.held session := by
  rintro ⟨hlisted, text, hat, hread⟩
  have hsaves := saves_saveIn json ns old held calls
  -- The entry was there before the save, which writes one of another session.
  have hentry : held (serverAccount ns session.baseUrl) = some text := by
    by_cases hurl : session.baseUrl = old.baseUrl
    · rw [hurl] at hat ⊢
      rcases hsaves.entry with hsame | ⟨text', htext, hnew⟩
      · exact hsame ▸ hat
      · -- the entry would be the other session's
        rw [hnew] at hat
        cases hat
        rw [hjson.session _ _ htext] at hread
        exact absurd (Option.some.inj hread) hold
    · rw [← hat,
        hsaves.others _ (fun h => hurl (serverAccount_inj h)) (serverAccount_ne_index ns _)]
  refine hlost ⟨?_, text, hentry, hread⟩
  -- The list names the server only if it did, or if it is the one saved.
  rcases saveIn_listed json ns old ⟨held, calls⟩ with hindex | ⟨text', htext, hnew⟩
  · rw [listed_congr hindex] at hlisted
    exact hlisted
  · have hurl : session.baseUrl ≠ old.baseUrl := by
      intro hurl
      rw [hurl, hnew] at hat
      cases hat
      rw [hjson.session _ _ htext] at hread
      exact hold (Option.some.inj hread)
    cases hover : (Op.save old calls).overwrites json with
    | true =>
      obtain ⟨list, hlist, hindex⟩ := hsaves.alone hover
      rw [listed_of_some hindex (hjson.list _ _ hlist), List.mem_singleton] at hlisted
      exact absurd hlisted hurl
    | false =>
      rcases hsaves.list hover with hindex | ⟨list, hlist, hindex, -⟩
      · rw [listed_congr hindex] at hlisted
        exact hlisted
      · rw [listed_of_some hindex (hjson.list _ _ hlist), List.mem_append,
          List.mem_singleton] at hlisted
        exact hlisted.resolve_right hurl

/-- A single-server build left no such sign-in. -/
def NoneOld (json : Json) (ns : Text) (p : StoredSession → Prop) (held : Text → Option Text) :
    Prop :=
  ∀ text old, held (legacyAccount ns) = some text → json.readSession text = some old → ¬ p old

/-- Nor is it after what is done with other servers, unless it is the sign-in an older build
left. -/
theorem lost_apply (hjson : json.Faithful) (hlost : ¬ Kept json ns held session)
    (hother : op.about session.baseUrl = false) (hold : NoneOld json ns (· = session) held) :
    ¬ Kept json ns (op.apply json ns held) session := by
  cases op with
  | save other calls =>
    exact lost_saveIn hjson hlost fun h => ne_of_not_about hother (congrArg StoredSession.baseUrl h)
  | forget url calls =>
    have hne : url ≠ session.baseUrl := by simpa [Op.about] using hother
    have hforgets := forgets_forgetIn json ns url held calls
    rintro ⟨hlisted, hentry⟩
    rw [Op.apply] at hlisted hentry
    refine hlost ⟨?_, ?_⟩
    · rcases hforgets.list with hindex | ⟨text, htext, hindex⟩ | ⟨-, hindex⟩
      · rw [listed_congr hindex] at hlisted
        exact hlisted
      · rw [listed_of_some hindex (hjson.list _ _ htext)] at hlisted
        exact (List.mem_filter.mp hlisted).1
      · rw [listed, hindex] at hlisted
        cases hlisted
    · rw [hforgets.others _ (fun h => hne (serverAccount_inj h).symm)
        (serverAccount_ne_index ns _)] at hentry
      exact hentry
  | load calls =>
    rw [Op.apply]
    rcases loadIn_held json ns held calls with
      hheld | ⟨-, text, old, calls', hat, hread, hheld | hheld⟩
    · rw [hheld]
      exact hlost
    · rw [hheld]
      exact lost_saveIn hjson hlost (hold text old hat hread)
    · rw [hheld, Kept, listed_congr (Function.update_of_ne (legacyAccount_ne_index ns).symm _ _),
        Function.update_of_ne (legacyAccount_ne_server ns _).symm]
      exact lost_saveIn hjson hlost (hold text old hat hread)

/-- Nothing writes to the account of single-server builds. -/
theorem legacy_apply (json : Json) (ns : Text) (held : Text → Option Text) (op : Op) :
    op.apply json ns held (legacyAccount ns) = held (legacyAccount ns) ∨
      op.apply json ns held (legacyAccount ns) = none := by
  cases op with
  | save other calls =>
    exact .inl ((saves_saveIn json ns other held calls).others _ (legacyAccount_ne_server ns _)
      (legacyAccount_ne_index ns))
  | forget url calls =>
    exact .inl ((forgets_forgetIn json ns url held calls).others _ (legacyAccount_ne_server ns _)
      (legacyAccount_ne_index ns))
  | load calls =>
    rw [Op.apply]
    rcases loadIn_held json ns held calls with hheld | ⟨-, text, old, calls', -, -, hheld | hheld⟩
    · exact .inl (by rw [hheld])
    · rw [hheld]
      exact .inl ((saves_saveIn json ns old held calls').others _ (legacyAccount_ne_server ns _)
        (legacyAccount_ne_index ns))
    · rw [hheld]
      exact .inr (Function.update_self ..)

/-- What is kept is what this build wrote: every entry is its own server's, and no server is
listed twice. -/
structure Tidy (json : Json) (ns : Text) (held : Text → Option Text) : Prop where
  entries : ∀ url text, held (serverAccount ns url) = some text →
    ∃ session, json.readSession text = some session ∧ session.baseUrl = url
  list : ∀ text, held (indexAccount ns) = some text → ∃ urls, json.readList text = some urls ∧
    urls.Nodup

theorem Tidy.nodup (h : Tidy json ns held) : (listed json ns held).Nodup := by
  unfold listed
  split
  · next text hat =>
    obtain ⟨urls, hread, hnodup⟩ := h.list text hat
    rw [hread]
    exact hnodup
  · exact List.nodup_nil

theorem Tidy.saves (hjson : json.Faithful) (h : Tidy json ns held) {wrote : Bool}
    (hsaves : Saves json ns session wrote held held') : Tidy json ns held' := by
  refine ⟨fun url text hat => ?_, fun text hat => ?_⟩
  · by_cases hurl : url = session.baseUrl
    · subst hurl
      rcases hsaves.entry with hsame | ⟨text', htext', hnew⟩
      · exact h.entries _ text (hsame ▸ hat)
      · rw [hnew] at hat
        cases hat
        exact ⟨session, hjson.session _ _ htext', rfl⟩
    · rw [hsaves.others _ (fun heq => hurl (serverAccount_inj heq))
        (serverAccount_ne_index ns _)] at hat
      exact h.entries url text hat
  · cases wrote with
    | true =>
      obtain ⟨text', htext', hindex⟩ := hsaves.alone rfl
      rw [hindex] at hat
      cases hat
      exact ⟨_, hjson.list _ _ htext', List.nodup_singleton _⟩
    | false =>
      rcases hsaves.list rfl with hsame | ⟨text', htext', hindex, hnew⟩
      · exact h.list text (hsame ▸ hat)
      · rw [hindex] at hat
        cases hat
        refine ⟨_, hjson.list _ _ htext', ?_⟩
        exact List.Nodup.append h.nodup (List.nodup_singleton _)
          fun url hmem hmem' => hnew (List.mem_singleton.mp hmem' ▸ hmem)

theorem Tidy.forgets (hjson : json.Faithful) (h : Tidy json ns held)
    (hforgets : Forgets json ns url held held') :
    Tidy json ns held' := by
  refine ⟨fun other text hat => ?_, fun text hat => ?_⟩
  · by_cases hurl : other = url
    · subst hurl
      rcases hforgets.entry with hsame | hnone
      · exact h.entries _ text (hsame ▸ hat)
      · rw [hnone] at hat
        cases hat
    · rw [hforgets.others _ (fun heq => hurl (serverAccount_inj heq))
        (serverAccount_ne_index ns _)] at hat
      exact h.entries other text hat
  · rcases hforgets.list with hsame | ⟨text', htext', hindex⟩ | ⟨-, hindex⟩
    · exact h.list text (hsame ▸ hat)
    · rw [hindex] at hat
      cases hat
      exact ⟨_, hjson.list _ _ htext', h.nodup.filter _⟩
    · rw [hindex] at hat
      cases hat

theorem tidy_apply (hjson : json.Faithful) (h : Tidy json ns held) (op : Op) :
    Tidy json ns (op.apply json ns held) := by
  cases op with
  | save other calls => exact h.saves hjson (saves_saveIn json ns other held calls)
  | forget url calls => exact h.forgets hjson (forgets_forgetIn json ns url held calls)
  | load calls =>
    rw [Op.apply]
    rcases loadIn_held json ns held calls with hheld | ⟨-, text, old, calls', -, -, hheld | hheld⟩
    · rw [hheld]
      exact h
    · rw [hheld]
      exact h.saves hjson (saves_saveIn json ns old held calls')
    · rw [hheld]
      have hsaved := h.saves hjson (saves_saveIn json ns old held calls')
      refine ⟨fun url text hat => hsaved.entries url text ?_, fun text hat => hsaved.list text ?_⟩
      · rw [← hat, Function.update_of_ne (legacyAccount_ne_server ns url).symm]
      · rw [← hat, Function.update_of_ne (legacyAccount_ne_index ns).symm]

theorem tidy_run (hjson : json.Faithful) (h : Tidy json ns held) (ops : List Op) :
    Tidy json ns (run json ns held ops) := by
  induction ops generalizing held with
  | nil => exact h
  | cons op ops ih => exact ih (tidy_apply hjson h op)

variable {p : StoredSession → Prop}

theorem NoneOld.apply (h : NoneOld json ns p held) (op : Op) :
    NoneOld json ns p (op.apply json ns held) := by
  intro text old hat hold
  rcases legacy_apply json ns held op with hsame | hnone
  · exact h text old (hsame ▸ hat) hold
  · rw [hnone] at hat
    cases hat

theorem NoneOld.run (h : NoneOld json ns p held) (ops : List Op) :
    NoneOld json ns p (run json ns held ops) := by
  induction ops generalizing held with
  | nil => exact h
  | cons op ops ih => exact ih (h.apply op)

/-- Over a run of operations on other servers a sign-in is kept, if no save writes the list of
servers without having read it. -/
theorem kept_run (hjson : json.Faithful) (hkept : Kept json ns held session)
    (hother : ∀ op ∈ ops, op.about session.baseUrl = false)
    (hover : ∀ op ∈ ops, op.overwrites json = false) :
    Kept json ns (run json ns held ops) session := by
  induction ops generalizing held with
  | nil => exact hkept
  | cons op ops ih =>
    rw [List.forall_mem_cons] at hother hover
    exact ih ((kept_apply hjson hkept hother.1).mpr hover.1) hother.2 hover.2

/-- And only then, if it is not one that an older build left. -/
theorem kept_run_iff (hjson : json.Faithful) (hold : NoneOld json ns (· = session) held)
    (hother : ∀ op ∈ ops, op.about session.baseUrl = false) :
    Kept json ns (run json ns held ops) session ↔
      Kept json ns held session ∧ ∀ op ∈ ops, op.overwrites json = false := by
  induction ops generalizing held with
  | nil => simp [run]
  | cons op ops ih =>
    rw [List.forall_mem_cons] at hother
    have hrun : run json ns held (op :: ops) = run json ns (op.apply json ns held) ops := rfl
    rw [hrun, ih (hold.apply op) hother.2, List.forall_mem_cons, ← and_assoc]
    refine and_congr_left fun _ => ?_
    by_cases hkept : Kept json ns held session
    · rw [kept_apply hjson hkept hother.1]
      exact (and_iff_right hkept).symm
    · exact iff_of_false (lost_apply hjson hkept hother.1 hold) fun h => hkept h.1

theorem readSessions_fst (json : Json) (ns : Text) (urls : List Text) (k : Keyring)
    (hcalls : k.calls = []) :
    (readSessions json ns urls k).1 = urls.filterMap fun url =>
      (k.held (serverAccount ns url)).bind json.readSession := by
  induction urls generalizing k with
  | nil => rfl
  | cons url urls ih =>
    have hnext := ih k.next (by rw [Keyring.next, hcalls]; rfl)
    have hread : read (serverAccount ns url) k =
        (match k.held (serverAccount ns url) with | some value => .found value | none => .missing,
          k.next) := by
      rw [read, Keyring.call, hcalls]
      dsimp only [List.headD_nil]
      cases k.held (serverAccount ns url) with
      | none => rfl
      | some value => rfl
    rw [readSessions, hread, List.filterMap_cons]
    cases k.held (serverAccount ns url) with
    | none => exact hnext
    | some text =>
      dsimp only [Option.bind_some]
      cases json.readSession text with
      | none => exact hnext
      | some session => exact congrArg (session :: ·) hnext

/-- What the next start gets, with a keyring that works. -/
theorem loaded_eq (json : Json) (ns : Text) (held : Text → Option Text) :
    loaded json ns held =
      if (held (indexAccount ns)).isSome then
        (listed json ns held).filterMap fun url =>
          (held (serverAccount ns url)).bind json.readSession
      else ((held (legacyAccount ns)).bind json.readSession).toList := by
  unfold loaded loadIn read Keyring.call listed
  dsimp only [List.headD_nil]
  cases hindex : held (indexAccount ns) with
  | some text =>
    dsimp only
    have hsessions := readSessions_fst json ns ((json.readList text).getD [])
      (⟨held, []⟩ : Keyring).next rfl
    rw [if_pos Option.isSome_some]
    generalize readSessions json ns _ _ = sessions at hsessions ⊢
    rw [show (⟨held, []⟩ : Keyring).next.held = held from rfl] at hsessions
    rw [← hsessions]
    cases hempty : sessions.1.isEmpty with
    | true => rw [List.isEmpty_iff.mp hempty]; rfl
    | false => rfl
  | none =>
    dsimp only
    unfold adoptLegacy read Keyring.call Keyring.next
    dsimp only [List.tail_nil, List.headD_nil]
    cases held (legacyAccount ns) with
    | none => rfl
    | some text =>
      dsimp only [Option.bind_some]
      cases json.readSession text with
      | none => rfl
      | some old => rfl

/-- A session that is kept is one the next start gets. -/
theorem Kept.loaded (hkept : Kept json ns held session) : session ∈ loaded json ns held := by
  obtain ⟨hmem, entry, hat, hsession⟩ := hkept
  cases hindex : held (indexAccount ns) with
  | none =>
    rw [listed, hindex] at hmem
    cases hmem
  | some text =>
    rw [loaded_eq, hindex, if_pos Option.isSome_some, List.mem_filterMap]
    exact ⟨session.baseUrl, hmem, by rw [hat, Option.bind_some, hsession]⟩

theorem mem_loaded (htidy : Tidy json ns held) (hold : NoneOld json ns (· = session) held) :
    session ∈ loaded json ns held ↔ Kept json ns held session := by
  refine ⟨fun hmem => ?_, Kept.loaded⟩
  rw [loaded_eq] at hmem
  split at hmem
  · obtain ⟨url, hmem, hread⟩ := List.mem_filterMap.mp hmem
    obtain ⟨entry, hat, hsession⟩ := Option.bind_eq_some_iff.mp hread
    obtain ⟨own, hown, hurl⟩ := htidy.entries url entry hat
    rw [hsession] at hown
    cases hown
    subst hurl
    exact ⟨hmem, entry, hat, hsession⟩
  · obtain ⟨text, hat, hread⟩ := Option.bind_eq_some_iff.mp (Option.mem_toList.mp hmem)
    exact absurd rfl (hold text session hat hread)

theorem loaded_nodup (htidy : Tidy json ns held) :
    ((loaded json ns held).map StoredSession.baseUrl).Nodup := by
  rw [loaded_eq]
  split
  · refine htidy.nodup.sublist ?_
    generalize listed json ns held = urls
    induction urls with
    | nil => exact List.Sublist.slnil
    | cons url urls ih =>
      rw [List.filterMap_cons]
      split
      · exact ih.cons url
      · next session hread =>
        obtain ⟨entry, hat, hsession⟩ := Option.bind_eq_some_iff.mp hread
        obtain ⟨own, hown, hurl⟩ := htidy.entries url entry hat
        rw [hsession] at hown
        cases hown
        rw [List.map_cons, hurl]
        exact ih.cons_cons url
  · generalize (held (legacyAccount ns)).bind json.readSession = old
    cases old with
    | none => exact List.nodup_nil
    | some old => exact List.nodup_singleton _

/-- A keyring that has nothing of this build in it, and perhaps a sign-in of an older one. -/
def Fresh (ns : Text) (held : Text → Option Text) : Prop :=
  ∀ account, account ≠ legacyAccount ns → held account = none

theorem Fresh.tidy (json : Json) (h : Fresh ns held) : Tidy json ns held := by
  refine ⟨fun url text hat => ?_, fun text hat => ?_⟩
  · rw [h _ (legacyAccount_ne_server ns url).symm] at hat
    cases hat
  · rw [h _ (legacyAccount_ne_index ns).symm] at hat
    cases hat

theorem run_append (held : Text → Option Text) (before after : List Op) :
    run json ns held (before ++ after) = run json ns (run json ns held before) after :=
  List.foldl_append

/-- **A sign-in that was taken is kept**: once a save is answered as done, whatever is done
before and after it with other servers and whichever calls the keyring fails, the next start
gets that session, and each server's at most once, unless a save that could not read the list
of servers wrote one all the same. Then it does not, unless it is the very session a
single-server build had left. -/
theorem sign_in_kept (hjson : json.Faithful) (hfresh : Fresh ns held) {before after : List Op}
    (hdone : (saveIn json ns session ⟨run json ns held before, calls⟩).1 = .done)
    (hother : ∀ op ∈ after, op.about session.baseUrl = false) :
    ((loaded json ns (run json ns held (before ++ .save session calls :: after))).map
      StoredSession.baseUrl).Nodup ∧ ((∀ op ∈ after, op.overwrites json = false) →
        session ∈ loaded json ns (run json ns held (before ++ .save session calls :: after))) ∧
      (NoneOld json ns (· = session) (run json ns held before) →
        session ∈ loaded json ns (run json ns held (before ++ .save session calls :: after)) →
          ∀ op ∈ after, op.overwrites json = false) := by
  have htidy := tidy_run hjson (hfresh.tidy json) (before ++ .save session calls :: after)
  have hsplit : run json ns held (before ++ .save session calls :: after) =
      run json ns (saveIn json ns session ⟨run json ns held before, calls⟩).2.held after := by
    rw [run_append]
    rfl
  have hsaved :
      Kept json ns (saveIn json ns session ⟨run json ns held before, calls⟩).2.held session :=
    saveIn_done hjson hdone
  refine ⟨loaded_nodup htidy, fun hover => ?_, fun hold hmem => ?_⟩
  · rw [hsplit]
    exact (kept_run hjson hsaved hother hover).loaded
  · have hsince : NoneOld json ns (· = session)
        (saveIn json ns session ⟨run json ns held before, calls⟩).2.held :=
      hold.apply (.save session calls)
    rw [hsplit] at htidy hmem
    rw [mem_loaded htidy (hsince.run after), kept_run_iff hjson hsince hother] at hmem
    exact hmem.2

/-- **A server that was forgotten stays forgotten**: once forgetting it is answered as done, no
start gets a session of it, whatever is done with others and whichever calls fail, until it is
saved again, if nothing a single-server build left of it was there by then. -/
theorem forgotten_stays (hjson : json.Faithful) (hfresh : Fresh ns held) {before after : List Op}
    (hold : NoneOld json ns (fun old => old.baseUrl = url) (run json ns held before))
    (hdone : (forgetIn json ns url ⟨run json ns held before, calls⟩).1 = .done)
    (hother : ∀ op ∈ after, op.about url = false) :
    ∀ session ∈ loaded json ns (run json ns held (before ++ .forget url calls :: after)),
      session.baseUrl ≠ url := by
  rintro session hmem rfl
  have htidy := tidy_run hjson (hfresh.tidy json) (before ++ .forget session.baseUrl calls :: after)
  have hsplit : run json ns held (before ++ .forget session.baseUrl calls :: after) =
      run json ns
        (forgetIn json ns session.baseUrl ⟨run json ns held before, calls⟩).2.held after := by
    rw [run_append]
    rfl
  have hsince : NoneOld json ns (· = session)
      (forgetIn json ns session.baseUrl ⟨run json ns held before, calls⟩).2.held := by
    intro text old hat hread heq
    exact hold.apply (.forget session.baseUrl calls) text old hat hread
      (congrArg StoredSession.baseUrl heq)
  rw [hsplit] at htidy hmem
  rw [mem_loaded htidy (hsince.run after), kept_run_iff hjson hsince hother] at hmem
  obtain ⟨text, hat, -⟩ := hmem.1.2
  rw [forgetIn_done hdone] at hat
  cases hat

section Two

def home : StoredSession := ⟨['h'], ['t']⟩
def homeNow : StoredSession := ⟨['h'], ['v']⟩
def work : StoredSession := ⟨['w'], ['u']⟩

/-- The lists and sessions of two servers, as JSON writes them. -/
def lists : List (List Text × Text) :=
  [([['w']], "[\"w\"]".toList), ([['h'], ['w']], "[\"h\",\"w\"]".toList),
    ([['h']], "[\"h\"]".toList)]

def sessions : List (StoredSession × Text) :=
  [(home, "\x7b\"base_url\":\"h\",\"refresh_token\":\"t\"\x7d".toList),
    (homeNow, "\x7b\"base_url\":\"h\",\"refresh_token\":\"v\"\x7d".toList),
    (work, "\x7b\"base_url\":\"w\",\"refresh_token\":\"u\"\x7d".toList)]

def written {α : Type} [DecidableEq α] (table : List (α × Text)) (value : α) : Except Text Text :=
  match table.find? fun entry => entry.1 = value with
  | some entry => .ok entry.2
  | none => .error []

def readBack {α : Type} (table : List (α × Text)) (text : Text) : Option α :=
  (table.find? fun entry => entry.2 = text).map Prod.fst

theorem readBack_written {α : Type} [DecidableEq α] {table : List (α × Text)}
    (h : ∀ entry ∈ table, readBack table entry.2 = some entry.1) (value : α) (text : Text)
    (hwritten : written table value = .ok text) : readBack table text = some value := by
  unfold written at hwritten
  split at hwritten
  · next entry hfind =>
    cases hwritten
    rw [h entry (List.mem_of_find?_eq_some hfind)]
    have hsome := List.find?_some hfind
    exact congrArg some (of_decide_eq_true hsome)
  · cases hwritten

def twoServers : Json := ⟨written lists, readBack lists, written sessions, readBack sessions⟩

theorem twoServers_faithful : twoServers.Faithful := by
  refine ⟨readBack_written ?_, readBack_written ?_⟩
  · simp [lists, readBack]
  · simp [sessions, readBack, home, homeNow, work]

/-- What an older build left: a sign-in to one server. -/
def upgraded : Text → Option Text := fun account =>
  if account = [] then some "\x7b\"base_url\":\"h\",\"refresh_token\":\"t\"\x7d".toList else none

theorem upgraded_fresh : Fresh [] upgraded := fun _ h => if_neg h

/-- The old sign-in is carried forward, its token is exchanged, and a second server is added and
forgotten with the list's write failing. -/
theorem sign_in_kept_home :
    homeNow ∈ loaded twoServers [] (run twoServers [] upgraded
      ([.load [], .save work []] ++
        .save homeNow [] :: [.forget ['w'] [.works, .works, .fails [] false], .load []])) := by
  refine (sign_in_kept twoServers_faithful upgraded_fresh ?_ ?_).2.1 ?_
  · rfl
  · simp [Op.about, homeNow]
  · simp [Op.overwrites]

theorem forgotten_stays_home :
    (forgetIn twoServers [] ['h'] ⟨run twoServers [] upgraded [.load []], []⟩).1 = .done ∧
      ∀ session ∈ loaded twoServers [] (run twoServers [] upgraded
        ([.load []] ++ .forget ['h'] [] :: [.save work [], .load []])),
          session.baseUrl ≠ ['h'] := by
  have hdone :
      (forgetIn twoServers [] ['h'] ⟨run twoServers [] upgraded [.load []], []⟩).1 = .done := rfl
  have hgone : run twoServers [] upgraded [.load []] (legacyAccount []) = none := rfl
  refine ⟨hdone, forgotten_stays twoServers_faithful upgraded_fresh ?_ hdone ?_⟩
  · intro text old hat
    rw [hgone] at hat
    cases hat
  · simp [Op.about, work]

end Two

end Linger.Secrets
