import Linger.Trimming
import Linger.FileNames

/-! What somebody typed into search, rebuilt as a query of quoted phrases: which words it looks
for, and that nothing of it can be read as anything but those phrases. -/
namespace Linger.Search
open Names (Text trim isWhitespace)
open FileNames (isControl)

def maxSearchTerms : ℕ := 12

/-- Whether a run of characters has anything that would be indexed. `isAlphanumeric` is what
Unicode's tables say. -/
def isSearchable (isAlphanumeric : Char → Bool) (phrase : Text) : Bool := phrase.any isAlphanumeric

structure Terms where
  phrases : List Text
  deriving DecidableEq

/-- Where `Terms::parse` is in what it reads. -/
structure Reading where
  phrases : List Text
  current : Text
  inQuotes : Bool

def Reading.flush (isAlphanumeric : Char → Bool) (r : Reading) : Reading :=
  let phrase := trim r.current
  { r with
    phrases := if isSearchable isAlphanumeric phrase then r.phrases ++ [phrase] else r.phrases
    current := [] }

def readChar (isAlphanumeric : Char → Bool) (r : Reading) (c : Char) : Reading :=
  -- a control character counts as a space
  let c := if isControl c then ' ' else c
  if c = '"' then { r.flush isAlphanumeric with inQuotes := !r.inQuotes }
  else if isWhitespace c && !r.inQuotes then r.flush isAlphanumeric
  else { r with current := r.current ++ [c] }

/-- `none` where there is nothing left to search for. -/
def Terms.parse (isAlphanumeric : Char → Bool) (raw : Text) : Option Terms :=
  let read := (raw.foldl (readChar isAlphanumeric) ⟨[], [], false⟩).flush isAlphanumeric
  let phrases := read.phrases.take maxSearchTerms
  if phrases.isEmpty then none else some ⟨phrases⟩

/-- Quoted phrases side by side: every one has to be in the message. -/
def Terms.toMatch (terms : Terms) : Text :=
  [' '].intercalate (terms.phrases.map fun phrase => '"' :: (phrase ++ ['"']))

/-- What was typed, cut at its double quotes: outside a pair every word by itself, inside one
phrase, and the last pair may be left open. -/
def pieces : Bool → List Text → List Text
  | _, [] => []
  | false, part :: parts => part.splitOnP isWhitespace ++ pieces true parts
  | true, part :: parts => trim part :: pieces false parts

def spaced (raw : Text) : Text := raw.map fun c => if isControl c then ' ' else c

/-- One string of a full-text query, after its opening quote. A doubled quote in it stands for
one, and the query is read only as far as a NUL. -/
def readString : Text → Option (Text × Text)
  | [] => none
  | c :: rest =>
    if c = '\x00' then none
    else if c = '"' then
      match rest with
      | [] => some ([], [])
      | d :: after =>
        if d = '"' then (readString after).map fun read => ('"' :: read.1, read.2)
          else some ([], rest)
    else (readString rest).map fun read => (c :: read.1, read.2)

/-- A query that is strings and nothing else. -/
def readStrings : ℕ → Text → Option (List Text)
  | _, [] => some []
  | 0, _ :: _ => none
  | n + 1, c :: rest =>
    if c = ' ' then readStrings n rest
    else if c = '"' then
      (readString rest).bind fun read => (readStrings n read.2).map (read.1 :: ·)
    else none

def readMatch (query : Text) : Option (List Text) := readStrings query.length query

section Pieces
variable {isAlphanumeric : Char → Bool} {phrase text : Text}

theorem trim_eq_trimBoth (text : Text) : trim text = Trimming.trimBoth isWhitespace text := rfl

theorem trim_of_word (h : ∀ c ∈ text, isWhitespace c = false) : trim text = text := by
  rw [trim_eq_trimBoth]
  refine Trimming.trimBoth_eq_self_iff.mpr ⟨fun c hc => h c ?_, fun c hc => h c ?_⟩
  · exact List.mem_of_mem_head? hc
  · exact List.mem_of_mem_getLast? hc

/-- What a flush adds: the phrase at hand, where it can be searched for. -/
theorem flush_eq (r : Reading) : r.flush isAlphanumeric =
    ⟨r.phrases ++ [trim r.current].filter (isSearchable isAlphanumeric), [], r.inQuotes⟩ := by
  unfold Reading.flush
  cases hsearch : isSearchable isAlphanumeric (trim r.current) with
  | true => simp [hsearch]
  | false => simp [hsearch]

theorem modifyHead_nil_append (parts : List Text) : parts.modifyHead ([] ++ ·) = parts := by
  cases parts with
  | nil => rfl
  | cons part parts => rfl

theorem readChar_eq (r : Reading) (c : Char) : readChar isAlphanumeric r c =
    if (if isControl c then ' ' else c) = '"' then
      ⟨(r.flush isAlphanumeric).phrases, [], !r.inQuotes⟩
    else if isWhitespace (if isControl c then ' ' else c) && !r.inQuotes then r.flush isAlphanumeric
    else ⟨r.phrases, r.current ++ [if isControl c then ' ' else c], r.inQuotes⟩ := rfl

/-- The loop, from any point of it: what is at hand goes before what is still to come. -/
theorem readChar_fold (isAlphanumeric : Char → Bool) (rest : Text) (r : Reading)
    (hword : r.inQuotes = false → ∀ c ∈ r.current, isWhitespace c = false) :
    ((rest.foldl (readChar isAlphanumeric) r).flush isAlphanumeric).phrases =
      r.phrases ++
        (pieces r.inQuotes (((spaced rest).splitOn '"').modifyHead (r.current ++ ·))).filter
        (isSearchable isAlphanumeric) := by
  induction rest generalizing r with
  -- At the end what is at hand is the last piece.
  | nil =>
    obtain ⟨phrases, current, inQuotes⟩ := r
    rw [List.foldl_nil, flush_eq, spaced, List.map_nil, List.splitOn_nil, List.modifyHead_cons,
      List.append_nil]
    cases inQuotes with
    | true => rfl
    | false =>
      have hwhole : current.splitOnP isWhitespace = [current] :=
        List.splitOnP_eq_singleton (hword rfl)
      rw [trim_of_word (hword rfl)]
      simp only [pieces, hwhole, List.append_nil]
  | cons c rest ih =>
    obtain ⟨phrases, current, inQuotes⟩ := r
    have hspaced : spaced (c :: rest) = (if isControl c then ' ' else c) :: spaced rest := rfl
    have hflush : (⟨phrases, current, inQuotes⟩ : Reading).flush isAlphanumeric =
        ⟨phrases ++ [trim current].filter (isSearchable isAlphanumeric), [], inQuotes⟩ := flush_eq _
    rw [List.foldl_cons, readChar_eq, hflush, hspaced, List.splitOn_cons_eq_if_modifyHead]
    dsimp only
    have hhead : ∃ part parts, (spaced rest).splitOn '"' = part :: parts :=
      List.exists_cons_of_ne_nil (List.splitOn_ne_nil _ _)
    -- The character as it is read, a control character being a space.
    generalize (if isControl c then ' ' else c) = c
    by_cases hquote : c = '"'
    · -- a quote ends what is at hand, on either side of it
      rw [if_pos hquote, if_pos (beq_iff_eq.mpr hquote), ih _ (fun _ c hc => by cases hc)]
      dsimp only
      rw [modifyHead_nil_append, List.append_assoc, ← List.filter_append, List.modifyHead_cons,
        List.append_nil]
      cases inQuotes with
      | true => rfl
      | false =>
        have hwhole : current.splitOnP isWhitespace = [current] :=
          List.splitOnP_eq_singleton (hword rfl)
        rw [trim_of_word (hword rfl)]
        simp only [pieces, hwhole]
        rfl
    · have hbeq : ¬(c == '"') = true := by simpa using hquote
      rw [if_neg hquote, if_neg hbeq]
      obtain ⟨part, parts, hparts⟩ := hhead
      rw [hparts]
      -- A blank outside quotes ends a word; any other character adds to what is at hand.
      cases hblank : isWhitespace c && !inQuotes with
      | true =>
        rw [Bool.and_eq_true, Bool.not_eq_true'] at hblank
        obtain ⟨hspace, rfl⟩ := hblank
        have hsplit :
            (current ++ c :: part).splitOnP isWhitespace = current :: part.splitOnP isWhitespace :=
          List.splitOnP_append_cons_of_forall_mem (hword rfl) c hspace part
        rw [if_pos rfl, ih _ (fun _ c hc => by cases hc)]
        dsimp only
        rw [hparts, trim_of_word (hword rfl), List.append_assoc, ← List.filter_append]
        simp only [List.modifyHead_cons, pieces, hsplit]
        rfl
      | false =>
        rw [if_neg Bool.false_ne_true, ih]
        · dsimp only
          rw [hparts]
          simp only [List.modifyHead_cons, List.append_assoc, List.cons_append, List.nil_append]
        · intro hout d hd
          dsimp only at hout
          rw [hout, Bool.not_false, Bool.and_true] at hblank
          rcases List.mem_append.mp hd with hold | hnew
          · exact hword hout d hold
          · rw [List.mem_singleton.mp hnew]
            exact hblank

/-- **What a search looks for**: what was typed, with control characters for spaces, cut at its
double quotes; the words outside them, the trimmed phrases inside, of both those with something
in them to find, and the first twelve of these. -/
theorem parse_pieces (isAlphanumeric : Char → Bool) (raw : Text) :
    Terms.parse isAlphanumeric raw =
      let phrases := ((pieces false ((spaced raw).splitOn '"')).filter
        (isSearchable isAlphanumeric)).take maxSearchTerms
      if phrases.isEmpty then none else some ⟨phrases⟩ := by
  have hread := readChar_fold isAlphanumeric raw ⟨[], [], false⟩ (fun _ c hc => by cases hc)
  rw [modifyHead_nil_append, List.nil_append] at hread
  unfold Terms.parse
  dsimp only
  rw [hread]

theorem mem_splitOnP {p : Char → Bool} {text part : Text} (h : part ∈ text.splitOnP p) :
    (∀ c ∈ part, c ∈ text) ∧ ∀ c ∈ part, p c = false := by
  induction text generalizing part with
  | nil =>
    rw [List.splitOnP_nil, List.mem_singleton] at h
    subst h
    simp
  | cons d text ih =>
    rw [List.splitOnP_cons_eq_if_modifyHead] at h
    have hall {part : Text} (hpart : part ∈ text.splitOnP p) :
        (∀ c ∈ part, c ∈ d :: text) ∧ ∀ c ∈ part, p c = false :=
      ⟨fun c hc => List.mem_cons_of_mem _ ((ih hpart).1 c hc), (ih hpart).2⟩
    split at h
    · rcases List.mem_cons.mp h with rfl | hpart
      · simp
      · exact hall hpart
    · next hd =>
      obtain ⟨first, parts, hparts⟩ := List.exists_cons_of_ne_nil (List.splitOnP_ne_nil p text)
      rw [hparts, List.modifyHead_cons] at h
      rcases List.mem_cons.mp h with rfl | hpart
      · have hfirst := @ih first (by rw [hparts]; exact List.mem_cons_self)
        constructor
        · intro c hc
          rcases List.mem_cons.mp hc with rfl | hc
          · exact List.mem_cons_self
          · exact List.mem_cons_of_mem _ (hfirst.1 c hc)
        · intro c hc
          rcases List.mem_cons.mp hc with rfl | hc
          · exact Bool.eq_false_iff.mpr hd
          · exact hfirst.2 c hc
      · exact hall (by rw [hparts]; exact List.mem_cons_of_mem _ hpart)

/-- Every phrase is trimmed, and made of what was typed between quotes. -/
theorem mem_pieces {inQuotes : Bool} {parts : List Text} (h : phrase ∈ pieces inQuotes parts) :
    trim phrase = phrase ∧ ∃ part ∈ parts, ∀ c ∈ phrase, c ∈ part := by
  induction parts generalizing inQuotes with
  | nil =>
    cases inQuotes with
    | true => cases h
    | false => cases h
  | cons part parts ih =>
    cases inQuotes with
    | true =>
      rcases List.mem_cons.mp h with rfl | hrest
      · refine ⟨Trimming.trimBoth_trimBoth isWhitespace part, part, List.mem_cons_self,
          fun c hc => ?_⟩
        exact Trimming.mem_of_mem_trimBoth (p := isWhitespace) hc
      · obtain ⟨htrim, other, hmem, hsub⟩ := ih hrest
        exact ⟨htrim, other, List.mem_cons_of_mem _ hmem, hsub⟩
    | false =>
      rcases List.mem_append.mp h with hword | hrest
      · obtain ⟨hsub, hspace⟩ := mem_splitOnP hword
        exact ⟨trim_of_word hspace, part, List.mem_cons_self, hsub⟩
      · obtain ⟨htrim, other, hmem, hsub⟩ := ih hrest
        exact ⟨htrim, other, List.mem_cons_of_mem _ hmem, hsub⟩

theorem exists_splitOnP {p : Char → Bool} {text : Text} {c : Char} (hc : c ∈ text)
    (hp : p c = false) :
    ∃ part ∈ text.splitOnP p, c ∈ part := by
  induction text with
  | nil => cases hc
  | cons d text ih =>
    obtain ⟨first, parts, hparts⟩ := List.exists_cons_of_ne_nil (List.splitOnP_ne_nil p text)
    rw [List.splitOnP_cons_eq_if_modifyHead]
    rw [hparts] at ih ⊢
    rcases List.mem_cons.mp hc with rfl | hc
    · rw [if_neg (by simp [hp])]
      exact ⟨c :: first, List.mem_cons_self, List.mem_cons_self⟩
    · obtain ⟨part, hmem, hin⟩ := ih hc
      split
      · exact ⟨part, List.mem_cons_of_mem _ hmem, hin⟩
      · rw [List.modifyHead_cons]
        rcases List.mem_cons.mp hmem with rfl | hmem
        · exact ⟨d :: part, List.mem_cons_self, List.mem_cons_of_mem _ hin⟩
        · exact ⟨part, List.mem_cons_of_mem _ hmem, hin⟩

theorem mem_trim {c : Char} (hc : c ∈ text) (hspace : isWhitespace c = false) : c ∈ trim text := by
  rw [trim_eq_trimBoth]
  obtain ⟨before, after, htext, hbefore, hafter⟩ := Trimming.trimBoth_split isWhitespace text
  rw [htext, List.mem_append, List.mem_append] at hc
  rcases hc with (hc | hc) | hc
  · rw [hbefore c hc] at hspace
    cases hspace
  · exact hc
  · rw [hafter c hc] at hspace
    cases hspace

/-- No character but a space is lost between the pieces. -/
theorem exists_pieces (inQuotes : Bool) {parts : List Text} {part : Text} (hpart : part ∈ parts)
    {c : Char} (hc : c ∈ part)
    (hspace : isWhitespace c = false) : ∃ phrase ∈ pieces inQuotes parts, c ∈ phrase := by
  induction parts generalizing inQuotes with
  | nil => cases hpart
  | cons first parts ih =>
    cases inQuotes with
    | true =>
      rcases List.mem_cons.mp hpart with rfl | hrest
      · exact ⟨trim part, List.mem_cons_self, mem_trim hc hspace⟩
      · obtain ⟨phrase, hmem, hin⟩ := ih false hrest
        exact ⟨phrase, List.mem_cons_of_mem _ hmem, hin⟩
    | false =>
      rcases List.mem_cons.mp hpart with rfl | hrest
      · obtain ⟨word, hword, hin⟩ := exists_splitOnP hc hspace
        exact ⟨word, List.mem_append_left _ hword, hin⟩
      · obtain ⟨phrase, hmem, hin⟩ := ih true hrest
        exact ⟨phrase, List.mem_append_right _ hmem, hin⟩

theorem isControl_space : isControl ' ' = false := by decide

theorem spaced_quiet (raw : Text) : ∀ c ∈ spaced raw, isControl c = false := by
  intro c hc
  obtain ⟨d, -, rfl⟩ := List.mem_map.mp hc
  split
  · exact isControl_space
  · next hd => exact Bool.eq_false_iff.mpr hd

/-- A phrase of a query: nothing in it can end it early or stop the reading. -/
structure Phrase (isAlphanumeric : Char → Bool) (phrase : Text) : Prop where
  searchable : phrase.any isAlphanumeric = true
  trimmed : trim phrase = phrase
  quiet : ∀ c ∈ phrase, isControl c = false ∧ c ≠ '"'

theorem parse_phrases {raw : Text} {terms : Terms}
    (h : Terms.parse isAlphanumeric raw = some terms) :
    terms.phrases ≠ [] ∧ terms.phrases.length ≤ maxSearchTerms ∧
      ∀ phrase ∈ terms.phrases, Phrase isAlphanumeric phrase := by
  rw [parse_pieces] at h
  dsimp only at h
  split at h
  · cases h
  · next hne =>
    cases h
    refine ⟨by simpa using hne, List.length_take_le _ _, fun phrase hmem => ?_⟩
    obtain ⟨hpiece, hsearch⟩ := List.mem_filter.mp (List.mem_of_mem_take hmem)
    obtain ⟨htrim, part, hpart, hsub⟩ := mem_pieces hpiece
    rw [List.splitOn_eq_splitOnP] at hpart
    obtain ⟨hraw, hquote⟩ := mem_splitOnP hpart
    exact ⟨hsearch, htrim,
      fun c hc => ⟨spaced_quiet raw c (hraw c (hsub c hc)), by simpa using hquote c (hsub c hc)⟩⟩

/-- **What can be searched for**: a query is turned down just when nothing in it is a letter or a
digit. -/
theorem parse_isSome_iff
    (hplain : ∀ c, isAlphanumeric c = true → isControl c = false ∧ isWhitespace c = false ∧ c ≠ '"')
    (raw : Text) :
    (Terms.parse isAlphanumeric raw).isSome = true ↔ raw.any isAlphanumeric = true := by
  rw [Option.isSome_iff_exists, List.any_eq_true]
  constructor
  · rintro ⟨terms, hterms⟩
    obtain ⟨hne, -, hphrases⟩ := parse_phrases hterms
    obtain ⟨phrase, hmem⟩ := List.exists_mem_of_ne_nil _ hne
    obtain ⟨c, hc, hsearch⟩ := List.any_eq_true.mp (hphrases phrase hmem).searchable
    rw [parse_pieces] at hterms
    dsimp only at hterms
    split at hterms
    · cases hterms
    · cases hterms
      obtain ⟨-, part, hpart, hsub⟩ := mem_pieces (List.mem_filter.mp (List.mem_of_mem_take hmem)).1
      rw [List.splitOn_eq_splitOnP] at hpart
      obtain ⟨d, hd, rfl⟩ := List.mem_map.mp ((mem_splitOnP hpart).1 c (hsub c hc))
      split at hsearch
      · -- a space is nothing to search for
        have hspace := (hplain ' ' hsearch).2.1
        exact absurd hspace (by decide)
      · exact ⟨d, hd, hsearch⟩
  · rintro ⟨c, hc, hsearch⟩
    obtain ⟨hcontrol, hspace, hquote⟩ := hplain c hsearch
    have hmem : c ∈ spaced raw := List.mem_map.mpr ⟨c, hc, by rw [hcontrol]; rfl⟩
    have hnot : (c == '"') = false := by simpa using hquote
    obtain ⟨part, hpart, hin⟩ := @exists_splitOnP (· == '"') _ _ hmem hnot
    obtain ⟨phrase, hphrase, hin⟩ := exists_pieces false hpart hin hspace
    have hkept :
        phrase ∈ (pieces false ((spaced raw).splitOn '"')).filter (isSearchable isAlphanumeric) :=
      List.mem_filter.mpr ⟨hphrase, List.any_eq_true.mpr ⟨c, hin, hsearch⟩⟩
    rw [parse_pieces]
    dsimp only
    rw [if_neg]
    · exact ⟨_, rfl⟩
    · rw [List.isEmpty_iff, List.take_eq_nil_iff]
      rintro (hzero | hnil)
      · cases hzero
      · rw [hnil] at hkept
        cases hkept

end Pieces

section Match
variable {isAlphanumeric : Char → Bool} {phrase : Text}

theorem isControl_nul : isControl '\x00' = true := by decide

/-- A phrase is read to its closing quote. -/
theorem readString_phrase (hquiet : ∀ c ∈ phrase, isControl c = false ∧ c ≠ '"') {after : Text}
    (hafter : after.head? ≠ some '"') :
    readString (phrase ++ '"' :: after) = some (phrase, after) := by
  have hnul : '"' ≠ '\x00' := by decide
  induction phrase with
  | nil =>
    rw [List.nil_append, readString.eq_def]
    dsimp only
    rw [if_neg hnul, if_pos rfl]
    cases after with
    | nil => rfl
    | cons d after => exact if_neg fun hd => hafter (by rw [hd]; rfl)
  | cons c phrase ih =>
    obtain ⟨hcontrol, hquote⟩ := hquiet c List.mem_cons_self
    have hc : c ≠ '\x00' := by
      rintro rfl
      rw [isControl_nul] at hcontrol
      cases hcontrol
    rw [List.cons_append, readString.eq_def]
    dsimp only
    rw [if_neg hc, if_neg hquote, ih fun d hd => hquiet d (List.mem_cons_of_mem _ hd)]
    rfl

theorem readStrings_quoted {phrases : List Text}
    (hquiet : ∀ phrase ∈ phrases, ∀ c ∈ phrase, isControl c = false ∧ c ≠ '"')
    (n : ℕ)
    (hn : ([' '].intercalate (phrases.map fun phrase => '"' :: (phrase ++ ['"']))).length ≤ n) :
    readStrings n ([' '].intercalate (phrases.map fun phrase => '"' :: (phrase ++ ['"']))) =
      some phrases := by
  induction phrases generalizing n with
  | nil =>
    cases n with
    | zero => rfl
    | succ n => rfl
  | cons phrase phrases ih =>
    have hfirst := hquiet phrase List.mem_cons_self
    cases hrest : phrases with
    | nil =>
      rw [hrest] at hn
      have hone : [' '].intercalate ([phrase].map fun phrase => '"' :: (phrase ++ ['"'])) =
          '"' :: (phrase ++ ['"']) := by
        simp [List.intercalate]
      rw [hone] at hn ⊢
      cases n with
      | zero => simp at hn
      | succ n =>
        rw [readStrings, if_neg (by decide), if_pos rfl, readString_phrase hfirst (by simp),
          Option.bind_some]
        cases n with
        | zero => rfl
        | succ n => rfl
    | cons second others =>
      have hmore := ih fun phrase hmem => hquiet phrase (List.mem_cons_of_mem _ hmem)
      rw [hrest] at hn hmore
      have hcons : [' '].intercalate ((phrase :: second :: others).map fun phrase =>
          '"' :: (phrase ++ ['"'])) =
          '"' :: (phrase ++ '"' :: ' ' ::
            [' '].intercalate ((second :: others).map fun phrase => '"' :: (phrase ++ ['"']))) := by
        simp [List.intercalate]
      rw [hcons] at hn ⊢
      generalize [' '].intercalate ((second :: others).map fun phrase => '"' :: (phrase ++ ['"'])) =
        more at hn hmore ⊢
      simp only [List.length_cons, List.length_append] at hn
      obtain ⟨m, rfl⟩ : ∃ m, n = m + 2 := ⟨n - 2, by omega⟩
      rw [readStrings, if_neg (by decide), if_pos rfl, readString_phrase hfirst (by simp),
        Option.bind_some, readStrings, if_pos rfl, hmore m (by omega)]
      rfl

/-- **Nothing typed reaches the index as syntax**: for whatever was typed, the query is read as
exactly the phrases it was made of, at most twelve and at least one, and each of these is trimmed,
has something in it to find, and no quote or control character. -/
theorem match_reads_phrases {raw : Text} {terms : Terms}
    (h : Terms.parse isAlphanumeric raw = some terms) :
    readMatch terms.toMatch = some terms.phrases ∧ terms.phrases ≠ [] ∧
      terms.phrases.length ≤ maxSearchTerms ∧
      ∀ phrase ∈ terms.phrases, Phrase isAlphanumeric phrase := by
  obtain ⟨hne, hlength, hphrases⟩ := parse_phrases h
  exact ⟨readStrings_quoted (fun phrase hmem => (hphrases phrase hmem).quiet) _ le_rfl, hne,
    hlength, hphrases⟩

/-- An unclosed quote, a star and a NUL. -/
theorem match_reads_phrases_operators :
    readMatch (Terms.toMatch ⟨["OR".toList, "a".toList, "b c*".toList]⟩) =
      some ["OR".toList, "a".toList, "b c*".toList] := by
  have h : Terms.parse Char.isAlphanum "OR a\x00* \"b c* ".toList =
      some ⟨["OR".toList, "a".toList, "b c*".toList]⟩ := by rfl
  exact (match_reads_phrases h).1

theorem parse_isSome_iff_query : (Terms.parse (· == 'a') "\"a".toList).isSome = true := by
  refine (parse_isSome_iff (fun c hc => ?_) _).mpr rfl
  rw [beq_iff_eq.mp hc]
  decide

end Match

end Linger.Search
