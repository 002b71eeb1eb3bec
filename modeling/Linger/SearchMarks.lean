import Linger.ArchiveBody

/-! What a search matched, read off the marks around it: a snippet cut into runs, and the
filenames with a match in them. -/
namespace Linger.Search
open Names (Text)
open ArchiveBody (splitOnce splitOnce_some splitOnce_none)

def filenameSeparator : Char := '\x1f'
def markStart : Char := '\x02'
def markEnd : Char := '\x03'

structure SearchSnippetPart where
  text : Text
  matched : Bool
  deriving DecidableEq

/-- Two runs of the same kind are one, and an empty one is none. -/
def push (parts : List SearchSnippetPart) (text : Text) (matched : Bool) : List SearchSnippetPart :=
  if text.isEmpty then parts
  else
    match parts.getLast? with
    | some last =>
      if last.matched = matched then parts.dropLast ++ [{ last with text := last.text ++ text }]
      else parts ++ [⟨text, matched⟩]
    | none => parts ++ [⟨text, matched⟩]

/-- What follows an opening mark. One that isn't closed marks nothing. -/
def pushChunk (parts : List SearchSnippetPart) (chunk : Text) : List SearchSnippetPart :=
  match splitOnce markEnd chunk with
  | some (inside, after) => push (push parts inside true) after false
  | none => push parts chunk false

def splitMarks (marked : Text) : List SearchSnippetPart :=
  match marked.splitOn markStart with
  | [] => []
  | first :: chunks => chunks.foldl pushChunk (push [] first false)

def isMark (c : Char) : Bool := c == markStart || c == markEnd

def matchedFilenames (marked : Text) : List Text :=
  (((marked.splitOn filenameSeparator).filter (·.contains markStart)).map
    (·.filter fun c => !isMark c)).filter (!·.isEmpty)

/-- Runs a renderer can trust: none is empty, and no two neighbours are of the same kind. -/
structure Alternating (parts : List SearchSnippetPart) : Prop where
  filled : ∀ part ∈ parts, part.text ≠ []
  turns : parts.IsChain fun part next => part.matched ≠ next.matched

/-- Every character, and whether it was matched. -/
def painted (parts : List SearchSnippetPart) : List (Char × Bool) :=
  parts.flatMap fun part => part.text.map (·, part.matched)

/-- Text as the index highlights it: a mark before and a mark after each run that matched. -/
def highlighted (parts : List SearchSnippetPart) : Text :=
  parts.flatMap fun part => if part.matched then markStart :: (part.text ++ [markEnd])
    else part.text

section Push
variable {parts : List SearchSnippetPart}

theorem painted_append (parts more : List SearchSnippetPart) :
    painted (parts ++ more) = painted parts ++ painted more := List.flatMap_append

theorem painted_push (parts : List SearchSnippetPart) (text : Text) (matched : Bool) :
    painted (push parts text matched) = painted parts ++ text.map (·, matched) := by
  have hone (text : Text) : painted [⟨text, matched⟩] = text.map (·, matched) := by simp [painted]
  unfold push
  split
  · next hempty =>
    rw [List.isEmpty_iff.mp hempty, List.map_nil, List.append_nil]
  · split
    · next last hlast =>
      split
      · next hsame =>
        obtain ⟨before, rfl⟩ := List.getLast?_eq_some_iff.mp hlast
        rw [List.dropLast_concat, painted_append, painted_append, List.append_assoc]
        simp [painted, hsame]
      · rw [painted_append, hone]
    · rw [painted_append, hone]

theorem Alternating.push (h : Alternating parts) (text : Text) (matched : Bool) :
    Alternating (push parts text matched) := by
  unfold Search.push
  split
  · exact h
  · next hfilled =>
    have hne : text ≠ [] := fun hnil => hfilled (List.isEmpty_iff.mpr hnil)
    have hends (hturn : ∀ last ∈ parts.getLast?, last.matched ≠ matched) :
        Alternating (parts ++ [⟨text, matched⟩]) := by
      refine ⟨fun part hmem => ?_, ?_⟩
      · rcases List.mem_append.mp hmem with hold | hnew
        · exact h.filled part hold
        · rw [List.mem_singleton.mp hnew]
          exact hne
      · refine List.isChain_append.mpr ⟨h.turns, List.isChain_singleton _, ?_⟩
        rintro last hlast next hnext
        cases hnext
        exact hturn last hlast
    split
    · next last hlast =>
      split
      · next hsame =>
        -- the last run grows, and is of the kind it was
        obtain ⟨before, rfl⟩ := List.getLast?_eq_some_iff.mp hlast
        rw [List.dropLast_concat]
        obtain ⟨hbefore, -, hturn⟩ := List.isChain_append.mp h.turns
        refine ⟨fun part hmem => ?_,
          List.isChain_append.mpr ⟨hbefore, List.isChain_singleton _, ?_⟩⟩
        · rcases List.mem_append.mp hmem with hold | hnew
          · exact h.filled part (List.mem_append_left _ hold)
          · rw [List.mem_singleton.mp hnew]
            exact fun hnil => hne (List.append_eq_nil_iff.mp hnil).2
        · rintro prev hprev next hnext
          cases hnext
          exact hturn prev hprev last rfl
      · next hdiffer =>
        refine hends fun other hother => ?_
        rw [hlast] at hother
        cases hother
        exact hdiffer
    · next hnone =>
      refine hends fun other hother => ?_
      rw [hnone] at hother
      cases hother

theorem alternating_nil : Alternating [] := ⟨by simp, List.isChain_nil⟩

theorem Alternating.chunk (h : Alternating parts) (chunk : Text) :
    Alternating (pushChunk parts chunk) := by
  unfold pushChunk
  split
  · exact (h.push _ true).push _ false
  · exact h.push _ false

theorem Alternating.chunks (h : Alternating parts) (chunks : List Text) :
    Alternating (chunks.foldl pushChunk parts) := by
  induction chunks generalizing parts with
  | nil => exact h
  | cons chunk chunks ih => exact ih (h.chunk chunk)

theorem alternating_splitMarks (marked : Text) : Alternating (splitMarks marked) := by
  unfold splitMarks
  split
  · exact alternating_nil
  · exact (alternating_nil.push _ false).chunks _

theorem painted_cons (part : SearchSnippetPart) (parts : List SearchSnippetPart) :
    painted (part :: parts) = part.text.map (·, part.matched) ++ painted parts := rfl

/-- The first run is as far as the characters are of its kind. -/
theorem Alternating.first_run {part : SearchSnippetPart} (h : Alternating (part :: parts)) :
    (painted (part :: parts)).takeWhile (·.2 == part.matched) = part.text.map (·, part.matched) ∧
      (painted (part :: parts)).dropWhile (·.2 == part.matched) = painted parts := by
  have hall : ∀ e ∈ part.text.map (·, part.matched), (e.2 == part.matched) = true := by
    intro e he
    obtain ⟨c, -, rfl⟩ := List.mem_map.mp he
    exact beq_self_eq_true part.matched
  have hnext : ∀ e ∈ (painted parts).head?, ¬(e.2 == part.matched) = true := by
    intro e he
    cases parts with
    | nil => cases he
    | cons next parts =>
      -- the next run is filled, so it is what comes next
      obtain ⟨c, text, htext⟩ := List.exists_cons_of_ne_nil (h.filled next (by simp))
      rw [painted_cons, htext, List.map_cons, List.cons_append, List.head?_cons,
        Option.mem_some] at he
      rw [← he]
      have hturn := (List.isChain_cons_cons.mp h.turns).1
      simpa using hturn.symm
  rw [painted_cons, List.takeWhile_append_of_pos hall, List.dropWhile_append_of_pos hall]
  cases hrest : painted parts with
  | nil => simp
  | cons e rest =>
    have he := hnext e (by rw [hrest]; rfl)
    simp only [List.takeWhile_cons, List.dropWhile_cons, if_neg he, List.append_nil, and_self]

theorem Alternating.tail {part : SearchSnippetPart} (h : Alternating (part :: parts)) :
    Alternating parts :=
  ⟨fun other hmem => h.filled other (List.mem_cons_of_mem _ hmem), h.turns.tail⟩

theorem Alternating.painted_ne_nil (h : Alternating parts) (hne : parts ≠ []) :
    painted parts ≠ [] := by
  obtain ⟨part, rest, rfl⟩ := List.exists_cons_of_ne_nil hne
  rw [painted_cons]
  intro hnil
  exact h.filled part List.mem_cons_self (List.map_eq_nil_iff.mp (List.append_eq_nil_iff.mp hnil).1)

/-- Two lists of runs that can be trusted and paint the same are the same. -/
theorem Alternating.painted_inj {more : List SearchSnippetPart} (h : Alternating parts)
    (h' : Alternating more)
    (hsame : painted parts = painted more) : parts = more := by
  induction parts generalizing more with
  | nil =>
    by_contra hne
    exact h'.painted_ne_nil (Ne.symm hne) hsame.symm
  | cons part parts ih =>
    cases more with
    | nil => exact absurd hsame (h.painted_ne_nil (List.cons_ne_nil _ _))
    | cons other more =>
      have hkind : part.matched = other.matched := by
        obtain ⟨c, text, htext⟩ := List.exists_cons_of_ne_nil (h.filled part List.mem_cons_self)
        obtain ⟨d, text', htext'⟩ := List.exists_cons_of_ne_nil (h'.filled other List.mem_cons_self)
        have hhead := congrArg List.head? hsame
        rw [painted_cons, painted_cons, htext, htext'] at hhead
        simpa using (congrArg (Option.map Prod.snd) hhead)
      obtain ⟨htake, hdrop⟩ := h.first_run
      obtain ⟨htake', hdrop'⟩ := h'.first_run
      rw [← hkind, ← hsame] at htake' hdrop'
      have htext : part.text = other.text := by
        have hmap := congrArg (List.map Prod.fst) (htake.symm.trans htake')
        simpa [Function.comp_def] using hmap
      have hrest := ih h.tail h'.tail (hdrop.symm.trans hdrop')
      cases part
      cases other
      cases hkind
      cases htext
      rw [hrest]

end Push

section Marks
variable {parts : List SearchSnippetPart} {text : Text}

/-- A text the marks are not part of. -/
def Unmarked (text : Text) : Prop := ∀ c ∈ text, isMark c = false

theorem Unmarked.start (h : Unmarked text) : markStart ∉ text := fun hmem => by
  have hmark := h _ hmem
  cases hmark

theorem Unmarked.stop (h : Unmarked text) : markEnd ∉ text := fun hmem => by
  have hmark := h _ hmem
  cases hmark

/-- What one chunk paints: what its first closing mark closes, and the rest. -/
def chunkPainted (chunk : Text) : List (Char × Bool) :=
  match splitOnce markEnd chunk with
  | some (inside, after) => inside.map (·, true) ++ after.map (·, false)
  | none => chunk.map (·, false)

def chunksPainted : List Text → List (Char × Bool)
  | [] => []
  | first :: chunks => first.map (·, false) ++ chunks.flatMap chunkPainted

theorem painted_chunks (chunks : List Text) (parts : List SearchSnippetPart) :
    painted (chunks.foldl pushChunk parts) = painted parts ++ chunks.flatMap chunkPainted := by
  induction chunks generalizing parts with
  | nil => simp
  | cons chunk chunks ih =>
    have hchunk : painted (pushChunk parts chunk) = painted parts ++ chunkPainted chunk := by
      unfold pushChunk chunkPainted
      split
      · rw [painted_push, painted_push, List.append_assoc]
      · rw [painted_push]
    rw [List.foldl_cons, ih, hchunk, List.append_assoc, List.flatMap_cons]

theorem painted_splitMarks (marked : Text) :
    painted (splitMarks marked) = chunksPainted (marked.splitOn markStart) := by
  obtain ⟨first, chunks, hsplit⟩ :=
    List.exists_cons_of_ne_nil (List.splitOn_ne_nil markStart marked)
  rw [splitMarks, hsplit]
  dsimp only
  rw [painted_chunks, painted_push]
  rfl

theorem splitOn_append {c : Char} {before : Text} (h : c ∉ before) (rest : Text) :
    (before ++ rest).splitOn c = (rest.splitOn c).modifyHead (before ++ ·) := by
  induction before with
  | nil =>
    obtain ⟨first, chunks, hsplit⟩ := List.exists_cons_of_ne_nil (List.splitOn_ne_nil c rest)
    rw [List.nil_append, hsplit]
    rfl
  | cons d before ih =>
    have hd : ¬(d == c) = true := fun heq => h (by rw [beq_iff_eq.mp heq]; exact List.mem_cons_self)
    rw [List.cons_append, List.splitOn_cons_eq_if_modifyHead, if_neg hd,
      ih fun hmem => h (List.mem_cons_of_mem _ hmem)]
    obtain ⟨first, chunks, hsplit⟩ := List.exists_cons_of_ne_nil (List.splitOn_ne_nil c rest)
    rw [hsplit]
    rfl

/-- Read back, highlighted text paints what was highlighted. -/
theorem painted_highlighted (h : ∀ part ∈ parts, Unmarked part.text) :
    painted (splitMarks (highlighted parts)) = painted parts := by
  rw [painted_splitMarks]
  induction parts with
  | nil => rfl
  | cons part parts ih =>
    have hpart := h part List.mem_cons_self
    have hrest := ih fun other hmem => h other (List.mem_cons_of_mem _ hmem)
    obtain ⟨first, chunks, hsplit⟩ :=
      List.exists_cons_of_ne_nil (List.splitOn_ne_nil markStart (highlighted parts))
    rw [hsplit] at hrest
    cases hmatched : part.matched with
    | true =>
      have hcons : highlighted (part :: parts) =
          markStart :: (part.text ++ markEnd :: highlighted parts) := by
        simp [highlighted, hmatched]
      have hend : markStart ∉ part.text ++ [markEnd] := by
        rw [List.mem_append, List.mem_singleton]
        exact not_or.mpr ⟨hpart.start, by decide⟩
      have hinside : splitOnce markEnd (part.text ++ markEnd :: first) = some (part.text, first) :=
        splitOnce_some.mpr ⟨rfl, hpart.stop⟩
      rw [hcons, List.splitOn_cons_eq_if_modifyHead, if_pos (beq_self_eq_true markStart),
        List.append_cons, splitOn_append hend, hsplit, List.modifyHead_cons, ← List.append_cons,
        chunksPainted, List.flatMap_cons, chunkPainted, hinside]
      dsimp only
      rw [painted_cons, hmatched, ← hrest, chunksPainted]
      simp
    | false =>
      have hcons : highlighted (part :: parts) = part.text ++ highlighted parts := by
        simp [highlighted, hmatched]
      rw [hcons, splitOn_append hpart.start, hsplit, List.modifyHead_cons, chunksPainted,
        painted_cons, hmatched, ← hrest, chunksPainted, List.map_append, List.append_assoc]

theorem highlighted_contains (h : ∀ part ∈ parts, Unmarked part.text) :
    (highlighted parts).contains markStart = parts.any (·.matched) := by
  rw [Bool.eq_iff_iff, List.contains_iff_mem, highlighted, List.mem_flatMap, List.any_eq_true]
  refine exists_congr fun part => and_congr_right fun hmem => ?_
  have hstart := (h part hmem).start
  cases part.matched with
  | true => simp
  | false => simp [hstart]

theorem highlighted_plain (h : ∀ part ∈ parts, Unmarked part.text) :
    (highlighted parts).filter (fun c => !isMark c) = parts.flatMap (·.text) := by
  induction parts with
  | nil => rfl
  | cons part parts ih =>
    have hpart : part.text.filter (fun c => !isMark c) = part.text :=
      List.filter_eq_self.mpr fun c hc => by rw [h part List.mem_cons_self c hc]; rfl
    have hrest := ih fun other hmem => h other (List.mem_cons_of_mem _ hmem)
    unfold highlighted at hrest ⊢
    rw [List.flatMap_cons, List.filter_append, hrest, List.flatMap_cons]
    have hstart : isMark markStart = true := rfl
    have hstop : isMark markEnd = true := rfl
    cases part.matched with
    | true => simp [hpart, hstart, hstop]
    | false => simp [hpart]

/-- **Marks are read back as they were made.** Whatever text the index answers, its runs are none
of them empty and take turns; where it is marker-free text highlighted run by run they show each
character as matched or not as the index said; and runs that could be trusted come back as they
were, so the two do not differ. -/
theorem marks_read_back (marked : Text) :
    Alternating (splitMarks marked) ∧
      ∀ parts, (∀ part ∈ parts, Unmarked part.text) → marked = highlighted parts →
        painted (splitMarks marked) = painted parts ∧
          (Alternating parts → splitMarks marked = parts) := by
  refine ⟨alternating_splitMarks marked, ?_⟩
  rintro parts hparts rfl
  have hpainted := painted_highlighted hparts
  exact ⟨hpainted, fun halternating => (alternating_splitMarks _).painted_inj halternating hpainted⟩

theorem not_mem_highlighted {c : Char} (hc : isMark c = false) (h : ∀ part ∈ parts, c ∉ part.text) :
    c ∉ highlighted parts := by
  intro hmem
  obtain ⟨part, hpart, hin⟩ := List.mem_flatMap.mp hmem
  have hstart : c ≠ markStart := by
    rintro rfl
    cases hc
  have hstop : c ≠ markEnd := by
    rintro rfl
    cases hc
  have hnot := h part hpart
  cases hmatched : part.matched with
  | true => simp [hmatched, hstart, hstop, hnot] at hin
  | false => simp [hmatched, hnot] at hin

/-- **The filenames that matched**: of the names joined into the index's column and highlighted
there, those with a match in them, as they are without the marks. -/
theorem matched_filenames_read_back (names : List (List SearchSnippetPart))
    (h : ∀ name ∈ names, ∀ part ∈ name, Unmarked part.text ∧ filenameSeparator ∉ part.text) :
    matchedFilenames ([filenameSeparator].intercalate (names.map highlighted)) =
      ((names.filter (·.any (·.matched))).map (·.flatMap (·.text))).filter (!·.isEmpty) := by
  have hnames : names ≠ [] →
      ([filenameSeparator].intercalate (names.map highlighted)).splitOn filenameSeparator =
        names.map highlighted := by
    intro hne
    refine List.splitOn_intercalate filenameSeparator ?_ (by simpa using hne)
    intro name hname
    obtain ⟨parts, hparts, rfl⟩ := List.mem_map.mp hname
    exact not_mem_highlighted rfl fun part hpart => (h parts hparts part hpart).2
  unfold matchedFilenames
  cases names with
  | nil => rfl
  | cons name names =>
    rw [hnames (List.cons_ne_nil _ _)]
    have hmatched : ((name :: names).map highlighted).filter (·.contains markStart) =
        ((name :: names).filter (·.any (·.matched))).map highlighted := by
      rw [List.filter_map]
      congr 1
      refine List.filter_congr fun parts hparts => ?_
      exact highlighted_contains fun part hpart => (h parts hparts part hpart).1
    rw [hmatched, List.map_map]
    congr 1
    refine List.map_congr_left fun parts hparts => ?_
    exact highlighted_plain fun part hpart => (h parts (List.mem_of_mem_filter hparts) part hpart).1

theorem matched_filenames_read_back_two :
    matchedFilenames ([filenameSeparator].intercalate
        ([[⟨"drive".toList, true⟩, ⟨".png".toList, false⟩],
          [⟨"cage.png".toList, false⟩]].map highlighted)) =
      ["drive.png".toList] := by
  rw [matched_filenames_read_back]
  · rfl
  · simp [Unmarked, isMark, markStart, markEnd, filenameSeparator]

end Marks

end Linger.Search
