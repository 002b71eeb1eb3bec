import Mathlib.Data.Bool.AllAny
import Mathlib.Data.List.Nodup
import Mathlib.Data.List.Perm.Subperm
import Linger.ArchiveBody

/-! What an archive's files are called: uploaded file names made safe and told apart, where
conversations go, and the names a zip is written with. -/
namespace Linger.ArchiveNames
open Names (Text trim isWhitespace)
open ArchiveBody (rsplitOnce rsplitOnce_some)

local instance textLawful : LawfulBEq (List Char) := inferInstance

section Code

def digitsOf (number : ℕ) : Text := Nat.toDigits 10 number

/-- What follows the last separator of either kind. -/
def baseOf (raw : Text) : Text := (raw.reverse.takeWhile fun c => c ≠ '/' && c ≠ '\\').reverse

def isPlain (c : Char) : Bool := c.isAlphanum || c ∈ ['.', '-', '_', ' ']

def plainOf (raw : Text) : Text := (baseOf raw).map fun c => if isPlain c then c else '_'

/-- A file's name before it is told apart from others. -/
def cleanedName (raw : Text) : Text :=
  let cleaned := trim ((trim (plainOf raw)).dropWhile (· == '.'))
  if cleaned.isEmpty then "file".toList else cleaned

/-- A cleaned name with a number before its extension. -/
def numbered (cleaned : Text) (number : ℕ) : Text :=
  let (stem, ext) := match rsplitOnce '.' cleaned with
    | some (stem, ext) => if stem.isEmpty then (cleaned, []) else (stem, '.' :: ext)
    | none => (cleaned, [])
  stem ++ " (".toList ++ digitsOf number ++ ')' :: ext

def archiveFilename (raw : Text) (taken : List Text) : Text × List Text :=
  let cleaned := cleanedName raw
  if cleaned ∉ taken then (cleaned, cleaned :: taken)
  else
    match (List.range' 2 9998).find? (fun number => numbered cleaned number ∉ taken) with
    | some number => (numbered cleaned number, numbered cleaned number :: taken)
    | none => (cleaned, taken)

/-- The names of a list of files, told apart one after another. -/
def archiveNames (raws : List Text) : List Text × List Text :=
  raws.foldl (fun (names, taken) raw =>
    let (name, taken) := archiveFilename raw taken
    (names ++ [name], taken)) ([], [])

structure MediaRow where
  objectKey : Text
  filename : Text

/-- The files that go into an archive; a key holds its file's id, so no two are the same. -/
structure Media where
  rows : List MediaRow
  apart : (rows.map MediaRow.objectKey).Nodup

/-- What each file is called, by its key. -/
def namesOf (rows : List MediaRow) : (Text → Option Text) × List Text :=
  rows.foldl (fun (names, taken) row =>
    let (name, taken) := archiveFilename row.filename taken
    (Function.update names row.objectKey (some name), taken)) (fun _ => none, [])

/-- A conversation: whether it is a direct message, and its slug. -/
structure Room where
  direct : Bool
  slug : Text

def Room.wanted (room : Room) : Text :=
  (if room.direct then "direct/" else "rooms/").toList ++ room.slug

/-- Where a conversation goes: where it wants to, or there with the first number nothing else
has. -/
def placeFor (wanted : Text) (taken : List Text) : Text :=
  if wanted ∉ taken then wanted
  else
    match (List.range' 2 (taken.length + 1)).find?
      (fun number => wanted ++ '-' :: digitsOf number ∉ taken) with
    | some number => wanted ++ '-' :: digitsOf number
    | none => wanted

def placesOf (rooms : List Room) : List Text :=
  rooms.foldl (fun places room => places ++ [placeFor room.wanted places]) []

/-- The names of an archive's entries, in order; `found` is whether a file's bytes were. -/
def entryNames (rooms : List Room) (media : Media) (found : MediaRow → Bool) : List Text :=
  ((placesOf rooms).flatMap fun place =>
    [place ++ ".md".toList, place ++ ".html".toList, place ++ ".json".toList]) ++
    ["Open me.html".toList, "media.html".toList, "media.md".toList, "README.md".toList] ++
    media.rows.filterMap fun row =>
      ((namesOf media.rows).1 row.objectKey).bind fun name => if found row then
        some ("media/".toList ++ name) else none

/-- The names a zip starts files under: those of the entries whose bytes are still there. -/
def startedNames (root : Text) (entries : List Text) (opens : Text → Bool) : List Text :=
  (entries.filter opens).map fun name => root ++ '/' :: name

end Code

section Wanted

structure SafeName (name : Text) : Prop where
  filled : name ≠ []
  noSlash : '/' ∉ name
  noBackslash : '\\' ∉ name
  noDot : name.head? ≠ some '.'
  notHere : name ≠ ".".toList
  notUp : name ≠ "..".toList

/-- What the names of a list of files should be. -/
structure Safe (raws : List Text) : Prop where
  apart : (archiveNames raws).1.Nodup
  safe : ∀ name ∈ (archiveNames raws).1, SafeName name
  zipped :
    ∀ (media : Media) (rooms : List Room) (found : MediaRow → Bool) (root : Text)
      (opens : Text → Bool),
    media.rows.map MediaRow.filename = raws →
      (startedNames root (entryNames rooms media found) opens).Nodup

/-- After blanks, some dots, then some spaces, then a dot. -/
def DotAfterGap (raw : Text) : Prop :=
  ∃ blanks dots gap rest, baseOf raw = blanks ++ dots ++ gap ++ '.' :: rest ∧
    (∀ c ∈ blanks, c = ' ') ∧ dots ≠ [] ∧ (∀ c ∈ dots, c = '.') ∧ gap ≠ [] ∧ ∀ c ∈ gap, c = ' '

/-- The name, or it with one of the numbers up to 9,999, is not taken yet. -/
def HasRoom (raw : Text) (taken : List Text) : Prop :=
  cleanedName raw ∉ taken ∨ ∃ number, 2 ≤ number ∧ number < 10000 ∧
    numbered (cleanedName raw) number ∉ taken

end Wanted

section Trimmed
variable {text before rest : Text} {c : Char}

def trimEnd (text : Text) : Text := (text.reverse.dropWhile isWhitespace).reverse

theorem trim_eq (text : Text) : trim text = trimEnd (text.dropWhile isWhitespace) := rfl

theorem trimEnd_cons (h : isWhitespace c = false) :
    trimEnd (before ++ c :: rest) = before ++ c :: trimEnd rest := by
  rw [trimEnd, trimEnd, List.reverse_append, List.reverse_cons, List.append_assoc,
    List.dropWhile_append]
  split
  · next hall =>
    rw [List.isEmpty_iff] at hall
    rw [hall, List.singleton_append, List.dropWhile_cons_of_neg (by simp [h])]
    simp
  · simp

theorem trimEnd_split (text : Text) :
    ∃ blanks, text = trimEnd text ++ blanks ∧ ∀ c ∈ blanks, isWhitespace c = true := by
  refine ⟨(text.reverse.takeWhile isWhitespace).reverse, ?_, ?_⟩
  · calc text
      _ = (text.reverse.takeWhile isWhitespace ++ text.reverse.dropWhile isWhitespace).reverse := by
        rw [List.takeWhile_append_dropWhile, List.reverse_reverse]
      _ = trimEnd text ++ (text.reverse.takeWhile isWhitespace).reverse := List.reverse_append
  · intro c hc
    exact List.mem_takeWhile_imp (List.mem_reverse.mp hc)

theorem trim_split (text : Text) : ∃ blanks tail, text = blanks ++ trim text ++ tail ∧
    (∀ c ∈ blanks, isWhitespace c = true) ∧ (∀ c ∈ tail, isWhitespace c = true) := by
  obtain ⟨tail, htail, hblank⟩ := trimEnd_split (text.dropWhile isWhitespace)
  refine ⟨text.takeWhile isWhitespace, tail, ?_, fun c hc => List.mem_takeWhile_imp hc, hblank⟩
  rw [List.append_assoc, trim_eq, ← htail, List.takeWhile_append_dropWhile]

/-- What is left of a text after trimming begins with no blank. -/
theorem trim_head (h : (trim text).head? = some c) : isWhitespace c = false := by
  obtain ⟨tail, htail, -⟩ := trimEnd_split (text.dropWhile isWhitespace)
  rw [← trim_eq] at htail
  have hhead : (text.dropWhile isWhitespace).head? = some c := by
    rw [htail, List.head?_append, h]
    rfl
  have hnot := List.head?_dropWhile_not isWhitespace text
  rw [hhead] at hnot
  exact hnot

theorem trimEnd_trimEnd (text : Text) : trimEnd (trimEnd text) = trimEnd text := by
  rw [trimEnd, trimEnd, List.reverse_reverse, List.dropWhile_idempotent]

theorem mem_of_mem_trim (h : c ∈ trim text) : c ∈ text := by
  obtain ⟨blanks, tail, hsplit, -⟩ := trim_split text
  rw [hsplit]
  simp [h]

end Trimmed

section Cleaned
variable {raw name taken : Text} {c : Char} {number : ℕ}

theorem plainOf_plain (h : c ∈ plainOf raw) : isPlain c = true := by
  obtain ⟨d, -, hd⟩ := List.mem_map.mp h
  by_cases hplain : isPlain d = true
  · rw [if_pos hplain] at hd
    rw [← hd]
    exact hplain
  · rw [if_neg hplain] at hd
    rw [← hd]
    decide

theorem plain_blank (hplain : isPlain c = true) (hblank : isWhitespace c = true) : c = ' ' := by
  simp only [isPlain, Bool.or_eq_true, decide_eq_true_eq, List.mem_cons, List.not_mem_nil,
    or_false] at hplain
  rcases hplain with halnum | rfl | rfl | rfl | rfl
  · have hnot : ∀ c : Char, c.isAlphanum = true → isWhitespace c = false := by
      intro c hc
      have hcodes := Names.alphanum_codes hc
      simp only [isWhitespace, Names.within, List.any_cons, List.any_nil, Bool.or_false,
        Bool.or_eq_false_iff, Bool.and_eq_false_iff, decide_eq_false_iff_not]
      omega
    rw [hnot c halnum] at hblank
    cases hblank
  · exact absurd hblank (by decide)
  · exact absurd hblank (by decide)
  · exact absurd hblank (by decide)
  · rfl

/-- A name after its dots and blanks are off, before `file` stands in for nothing. -/
def strippedName (raw : Text) : Text := trim ((trim (plainOf raw)).dropWhile (· == '.'))

theorem cleanedName_eq (raw : Text) :
    cleanedName raw = if strippedName raw = [] then "file".toList else strippedName raw := by
  rw [cleanedName, ← strippedName]
  simp only [List.isEmpty_iff]

theorem mem_strippedName (h : c ∈ strippedName raw) : c ∈ plainOf raw :=
  mem_of_mem_trim ((List.dropWhile_sublist _).subset (mem_of_mem_trim h))

theorem cleanedName_filled (raw : Text) : cleanedName raw ≠ [] := by
  rw [cleanedName_eq]
  split
  · simp
  · next h => exact h

theorem cleanedName_plain (h : c ∈ cleanedName raw) : isPlain c = true := by
  rw [cleanedName_eq] at h
  split at h
  · have hplain : ∀ d ∈ "file".toList, isPlain d = true := List.all_iff_forall_prop.mp (by decide)
    exact hplain c h
  · exact plainOf_plain (mem_strippedName h)

/-- What is replaced is neither a dot nor a space. -/
theorem plainOf_split {blanks dots gap rest : Text} :
    (∃ rest', baseOf raw = blanks ++ dots ++ gap ++ '.' :: rest' ∧
      (rest'.map fun c => if isPlain c then c else '_') = rest) ∧
        (∀ c ∈ blanks, c = ' ') ∧ (∀ c ∈ dots, c = '.') ∧ (∀ c ∈ gap, c = ' ') ↔
    plainOf raw = blanks ++ dots ++ gap ++ '.' :: rest ∧
        (∀ c ∈ blanks, c = ' ') ∧ (∀ c ∈ dots, c = '.') ∧ (∀ c ∈ gap, c = ' ') := by
  have hback : ∀ mark : Char, mark = '.' ∨ mark = ' ' →
      ∀ c : Char, (if isPlain c then c else '_') = mark ↔ c = mark := by
    intro mark hmark c
    split
    · rfl
    · next hplain =>
      rcases hmark with rfl | rfl
      · exact iff_of_false (by decide) fun h => hplain (h ▸ by decide)
      · exact iff_of_false (by decide) fun h => hplain (h ▸ by decide)
  -- A stretch of one such character is the same stretch before.
  have hsame : ∀ mark : Char, mark = '.' ∨ mark = ' ' →
      ∀ text stretch : Text, (∀ c ∈ stretch, c = mark) →
      ((text.map fun c => if isPlain c then c else '_') = stretch ↔ text = stretch) := by
    intro mark hmark text stretch hstretch
    induction stretch generalizing text with
    | nil => exact List.map_eq_nil_iff
    | cons c stretch ih =>
      cases text with
      | nil => simp
      | cons d text =>
        rw [List.map_cons, List.cons.injEq, List.cons.injEq,
          ih _ fun c hc => hstretch c (List.mem_cons_of_mem _ hc),
          hstretch c List.mem_cons_self, hback mark hmark]
  constructor
  · rintro ⟨⟨rest', hbase, hrest⟩, hblanks, hdots, hgap⟩
    refine ⟨?_, hblanks, hdots, hgap⟩
    rw [plainOf, hbase, List.map_append, List.map_append, List.map_append, List.map_cons, hrest,
      (hsame ' ' (Or.inr rfl) blanks blanks hblanks).mpr rfl,
      (hsame '.' (Or.inl rfl) dots dots hdots).mpr rfl,
      (hsame ' ' (Or.inr rfl) gap gap hgap).mpr rfl, (hback '.' (Or.inl rfl) '.').mpr rfl]
  · rintro ⟨hplain, hblanks, hdots, hgap⟩
    refine ⟨?_, hblanks, hdots, hgap⟩
    obtain ⟨most, tail, hmost, hmostMap, htail⟩ := List.map_eq_append_iff.mp hplain
    obtain ⟨start, gap', hstart, hstartMap, hgapMap⟩ := List.map_eq_append_iff.mp hmostMap
    obtain ⟨blanks', dots', hblanks', hblanksMap, hdotsMap⟩ := List.map_eq_append_iff.mp hstartMap
    obtain ⟨dot, rest', htailEq, hdot, hrest⟩ := List.map_eq_cons_iff.mp htail
    refine ⟨rest', ?_, hrest⟩
    rw [hmost, hstart, hblanks', htailEq, (hsame ' ' (Or.inr rfl) _ _ hblanks).mp hblanksMap,
      (hsame '.' (Or.inl rfl) _ _ hdots).mp hdotsMap, (hsame ' ' (Or.inr rfl) _ _ hgap).mp hgapMap,
      (hback '.' (Or.inl rfl) dot).mp hdot]

/-- A cleaned name begins with a dot when the name has one after a gap. -/
theorem cleanedName_dot (raw : Text) : (cleanedName raw).head? = some '.' ↔ DotAfterGap raw := by
  have hstripped : (cleanedName raw).head? = some '.' ↔ (strippedName raw).head? = some '.' := by
    rw [cleanedName_eq]
    split
    · next h =>
      rw [h]
      decide
    · rfl
  rw [hstripped]
  constructor
  · intro h
    obtain ⟨blanks, tail, hplain, hblanks, -⟩ := trim_split (plainOf raw)
    obtain ⟨gap, last, hgapSplit, hgap, -⟩ := trim_split ((trim (plainOf raw)).dropWhile (· == '.'))
    rw [← strippedName] at hgapSplit
    obtain ⟨rest, hrest⟩ : ∃ rest, strippedName raw = '.' :: rest := by
      cases hname : strippedName raw with
      | nil => simp [hname] at h
      | cons c rest =>
        rw [hname, List.head?_cons, Option.some.injEq] at h
        exact ⟨rest, by rw [h]⟩
    have hdots : ∀ c ∈ (trim (plainOf raw)).takeWhile (· == '.'), c = '.' := by
      intro c hc
      simpa using List.mem_takeWhile_imp hc
    have hsplit : trim (plainOf raw) =
        (trim (plainOf raw)).takeWhile (· == '.') ++ (gap ++ '.' :: rest ++ last) := by
      rw [← hrest, ← hgapSplit, List.takeWhile_append_dropWhile]
    have hspaces : ∀ c ∈ gap, c = ' ' := by
      intro c hc
      apply plain_blank _ (hgap c hc)
      have hmem : c ∈ trim (plainOf raw) := by
        rw [hsplit]
        simp [hc]
      exact plainOf_plain (mem_of_mem_trim hmem)
    -- What follows the dots does not begin with one, so there is a gap.
    have hne : gap ≠ [] := by
      intro hnil
      have hnot := List.head?_dropWhile_not (· == '.') (trim (plainOf raw))
      rw [hgapSplit, hnil, hrest] at hnot
      simp at hnot
    -- And what is trimmed does not begin with the gap, so there are dots.
    have hsome : (trim (plainOf raw)).takeWhile (· == '.') ≠ [] := by
      intro hnil
      rw [hnil, List.nil_append] at hsplit
      cases hgapCases : gap with
      | nil => exact hne hgapCases
      | cons c rest' =>
        have hhead : (trim (plainOf raw)).head? = some c := by
          rw [hsplit, hgapCases]
          rfl
        have hblank := hgap c (hgapCases ▸ List.mem_cons_self)
        rw [trim_head hhead] at hblank
        cases hblank
    have hlead : ∀ c ∈ blanks, c = ' ' := by
      intro c hc
      apply plain_blank _ (hblanks c hc)
      apply plainOf_plain
      rw [hplain]
      simp [hc]
    have hall : plainOf raw =
        blanks ++ (trim (plainOf raw)).takeWhile (· == '.') ++ gap ++
          '.' :: (rest ++ last ++ tail) := by
      calc plainOf raw
        _ = blanks ++ trim (plainOf raw) ++ tail := hplain
        _ = blanks ++ ((trim (plainOf raw)).takeWhile (· == '.') ++ (gap ++ '.' :: rest ++ last)) ++
            tail := by
          rw [← hsplit]
        _ = _ := by simp
    obtain ⟨⟨rest', hbase, -⟩, -⟩ := plainOf_split.mpr ⟨hall, hlead, hdots, hspaces⟩
    exact ⟨blanks, _, gap, rest', hbase, hlead, hsome, hdots, hne, hspaces⟩
  · rintro ⟨blanks, dots, gap, rest, hbase, hblanks, hsome, hdots, hne, hgap⟩
    obtain ⟨hplain, -⟩ := plainOf_split.mp ⟨⟨rest, hbase, rfl⟩, hblanks, hdots, hgap⟩
    have hblank : ∀ stretch : Text, (∀ c ∈ stretch, c = ' ') →
        ∀ c ∈ stretch, isWhitespace c = true := by
      intro stretch hstretch c hc
      rw [hstretch c hc]
      decide
    have hdot : isWhitespace '.' = false := by decide
    generalize (rest.map fun c => if isPlain c then c else '_') = rest' at hplain
    have hfirst : trim (plainOf raw) = dots ++ gap ++ '.' :: trimEnd rest' := by
      rw [trim_eq, hplain, List.append_assoc, List.append_assoc,
        List.dropWhile_append_of_pos (hblank blanks hblanks)]
      cases hdotsCases : dots with
      | nil => exact absurd hdotsCases hsome
      | cons c dots' =>
        have hc : c = '.' := hdots c (hdotsCases ▸ List.mem_cons_self)
        rw [hc, List.cons_append, List.dropWhile_cons_of_neg (by simp [hdot]), ← List.cons_append,
          ← List.append_assoc, trimEnd_cons hdot]
    have hsecond : strippedName raw = '.' :: trimEnd rest' := by
      rw [strippedName, hfirst, List.append_assoc,
        List.dropWhile_append_of_pos (fun c hc => by simp [hdots c hc])]
      cases hgapCases : gap with
      | nil => exact absurd hgapCases hne
      | cons c gap' =>
        have hc : c = ' ' := hgap c (hgapCases ▸ List.mem_cons_self)
        rw [List.cons_append, List.dropWhile_cons_of_neg (by simp [hc]), ← List.cons_append,
          ← hgapCases, trim_eq, List.dropWhile_append_of_pos (hblank gap hgap),
          List.dropWhile_cons_of_neg (by simp [hdot])]
        have hend := @trimEnd_cons [] (trimEnd rest') '.' hdot
        rw [List.nil_append, List.nil_append] at hend
        rw [hend, trimEnd_trimEnd]
    rw [hsecond]
    rfl

end Cleaned

section Numbers
variable {raw cleaned name : Text} {taken : List Text} {c : Char} {number other : ℕ}

/-- A number goes between a stem, which begins as the name does, and an extension. -/
theorem numbered_split (h : cleaned ≠ []) : ∃ stem ext, stem ≠ [] ∧ stem.head? = cleaned.head? ∧
    (∀ c ∈ stem, c ∈ cleaned) ∧ (∀ c ∈ ext, c ∈ cleaned) ∧
      ∀ number, numbered cleaned number = stem ++ " (".toList ++ digitsOf number ++ ')' :: ext := by
  unfold numbered
  cases hsplit : rsplitOnce '.' cleaned with
  | none => exact ⟨cleaned, [], h, rfl, fun c hc => hc, by simp, fun number => rfl⟩
  | some parts =>
    obtain ⟨stem, ext⟩ := parts
    by_cases hstem : stem = []
    · subst hstem
      exact ⟨cleaned, [], h, rfl, fun c hc => hc, by simp, fun number => rfl⟩
    · have hcleaned := rsplitOnce_some hsplit
      refine ⟨stem, '.' :: ext, hstem, ?_, ?_, ?_, ?_⟩
      · rw [hcleaned, List.head?_append_of_ne_nil _ hstem]
      · intro c hc
        rw [hcleaned]
        simp [hc]
      · intro c hc
        rw [hcleaned]
        exact List.mem_append_right _ hc
      · intro number
        dsimp only
        rw [if_neg (by simpa using hstem)]

theorem digitsOf_injective : Function.Injective digitsOf := by
  intro number other h
  rw [digitsOf, digitsOf] at h
  rw [← @Nat.ofDigitChars_ten_toDigits number, h, Nat.ofDigitChars_ten_toDigits]

theorem digitsOf_digit (h : c ∈ digitsOf number) : c.isDigit = true :=
  Nat.isDigit_of_mem_toDigits (by omega) (by omega) h

/-- Among more numbers than there are names taken, one gives a name that is not. -/
theorem exists_free {form : ℕ → Text} (hform : Function.Injective form) (taken : List Text)
    (start count : ℕ)
    (h : taken.length < count) : ∃ number ∈ List.range' start count, form number ∉ taken := by
  by_contra hall
  simp only [not_exists, not_and, not_not] at hall
  have hsub : (List.range' start count).map form ⊆ taken := by
    intro name hname
    obtain ⟨number, hnumber, heq⟩ := List.mem_map.mp hname
    rw [← heq]
    exact hall number hnumber
  have hnodup : ((List.range' start count).map form).Nodup := (List.nodup_range' ..).map hform
  have hle := (List.subperm_of_subset hnodup hsub).length_le
  rw [List.length_map, List.length_range'] at hle
  omega

/-- The name a file gets begins as its own does, is of its characters, a space, digits and brackets,
and is a new one while there is room. -/
theorem archiveFilename_spec (raw : Text) (taken : List Text) :
    (archiveFilename raw taken).1.head? = (cleanedName raw).head? ∧
      (∀ c ∈ (archiveFilename raw taken).1, isPlain c = true ∨ c = '(' ∨ c = ')') ∧
      ((archiveFilename raw taken).1 ∉ taken ↔ HasRoom raw taken) ∧
      ∀ name, name ∈ (archiveFilename raw taken).2 ↔
        name = (archiveFilename raw taken).1 ∨ name ∈ taken := by
  have hcleaned : ∀ c ∈ cleanedName raw, isPlain c = true ∨ c = '(' ∨ c = ')' :=
    fun c hc => Or.inl (cleanedName_plain hc)
  unfold archiveFilename
  dsimp only
  split
  · next hfree =>
    dsimp only
    exact ⟨rfl, hcleaned, iff_of_true hfree (Or.inl hfree), fun name => List.mem_cons⟩
  · next hheld =>
    rw [not_not] at hheld
    cases hfind :
      (List.range' 2 9998).find? (fun number => numbered (cleanedName raw) number ∉ taken) with
    | some number =>
      dsimp only
      obtain ⟨hfree, -⟩ := List.find?_eq_some_iff_append.mp hfind
      have hrange := List.mem_range'_1.mp (List.mem_of_find?_eq_some hfind)
      have hlast : number < 10000 := hrange.2
      have hnew : numbered (cleanedName raw) number ∉ taken := by simpa using hfree
      obtain ⟨stem, ext, hstem, hhead, hstemMem, hextMem, hnumbered⟩ :=
        numbered_split (cleanedName_filled raw)
      refine ⟨?_, ?_, iff_of_true hnew (Or.inr ⟨number, hrange.1, hlast, hnew⟩),
        fun name => List.mem_cons⟩
      · rw [hnumbered, List.append_assoc, List.append_assoc, List.head?_append_of_ne_nil _ hstem,
          hhead]
      · intro c hc
        rw [hnumbered] at hc
        simp only [List.mem_append, List.mem_cons] at hc
        rcases hc with ((hc | hc) | hc) | hc | hc
        · exact hcleaned c (hstemMem c hc)
        · have hopen : c = ' ' ∨ c = '(' := by simpa using hc
          rcases hopen with rfl | rfl
          · exact Or.inl (by decide)
          · exact Or.inr (Or.inl rfl)
        · refine Or.inl ?_
          simp [isPlain, Char.isAlphanum, digitsOf_digit hc]
        · exact Or.inr (Or.inr hc)
        · exact hcleaned c (hextMem c hc)
    | none =>
      dsimp only
      refine ⟨rfl, hcleaned, iff_of_false (not_not.mpr hheld) ?_, ?_⟩
      · rintro (hfree | ⟨number, hlow, hhigh, hfree⟩)
        · exact hfree hheld
        · have hnone := List.find?_eq_none.mp hfind number (List.mem_range'_1.mpr ⟨hlow, by omega⟩)
          exact hnone (by simpa using hfree)
      · intro name
        exact ⟨Or.inr, fun h => h.elim (fun heq => heq ▸ hheld) id⟩

end Numbers

section Folding
variable {raw name : Text} {raws : List Text}

theorem archiveNames_append (raws : List Text) (raw : Text) : archiveNames (raws ++ [raw]) =
    ((archiveNames raws).1 ++ [(archiveFilename raw (archiveNames raws).2).1],
      (archiveFilename raw (archiveNames raws).2).2) := by
  rw [archiveNames, List.foldl_append]
  rfl

/-- What is taken is what was given. -/
theorem taken_iff : name ∈ (archiveNames raws).2 ↔ name ∈ (archiveNames raws).1 := by
  induction raws using List.reverseRecOn with
  | nil => rfl
  | append_singleton raws raw ih =>
    rw [archiveNames_append, (archiveFilename_spec raw _).2.2.2, List.mem_append,
      List.mem_singleton, ih]
    exact or_comm

theorem hasRoom_iff : HasRoom raw (archiveNames raws).2 ↔ HasRoom raw (archiveNames raws).1 := by
  simp only [HasRoom, taken_iff]

/-- Names are apart just when there was room for each after those before it. -/
theorem apart_iff (raws : List Text) : (archiveNames raws).1.Nodup ↔
    ∀ before raw, before ++ [raw] <+: raws → HasRoom raw (archiveNames before).1 := by
  induction raws using List.reverseRecOn with
  | nil =>
    refine iff_of_true List.nodup_nil ?_
    intro before raw h
    simp at h
  | append_singleton raws raw ih =>
    have hnew : (archiveFilename raw (archiveNames raws).2).1 ∉ (archiveNames raws).1 ↔
        HasRoom raw (archiveNames raws).1 := by
      rw [← hasRoom_iff, ← (archiveFilename_spec raw _).2.2.1, taken_iff]
    rw [archiveNames_append, List.nodup_append_comm, List.singleton_append, List.nodup_cons, hnew,
      ih]
    constructor
    · rintro ⟨hlast, hearlier⟩ before other h
      rcases List.prefix_concat_iff.mp h with heq | hbefore
      · obtain ⟨rfl, hsame⟩ := List.append_inj' heq rfl
        rw [List.singleton_inj] at hsame
        rw [hsame]
        exact hlast
      · exact hearlier before other hbefore
    · intro h
      refine ⟨h raws raw (List.prefix_refl _), fun before other hbefore => h before other ?_⟩
      exact hbefore.trans (List.prefix_append _ _)

/-- Every name given begins as one of the cleaned ones, and every cleaned one's beginning is
given. -/
theorem names_heads (raws : List Text) : (∀ name ∈ (archiveNames raws).1, ∃ raw ∈ raws,
      name.head? = (cleanedName raw).head? ∧ ∀ c ∈ name, isPlain c = true ∨ c = '(' ∨ c = ')') ∧
    ∀ raw ∈ raws, ∃ name ∈ (archiveNames raws).1, name.head? = (cleanedName raw).head? := by
  induction raws using List.reverseRecOn with
  | nil =>
    constructor
    · intro name h
      cases h
    · intro raw h
      cases h
  | append_singleton raws raw ih =>
    obtain ⟨hhead, hchars, -⟩ := archiveFilename_spec raw (archiveNames raws).2
    rw [archiveNames_append]
    constructor
    · intro name hname
      rcases List.mem_append.mp hname with hearlier | hlast
      · obtain ⟨other, hother, hfacts⟩ := ih.1 name hearlier
        exact ⟨other, List.mem_append_left _ hother, hfacts⟩
      · rw [List.mem_singleton.mp hlast]
        exact ⟨raw, by simp, hhead, hchars⟩
    · intro other hother
      rcases List.mem_append.mp hother with hearlier | hlast
      · obtain ⟨name, hname, hsame⟩ := ih.2 other hearlier
        exact ⟨name, List.mem_append_left _ hname, hsame⟩
      · rw [List.mem_singleton.mp hlast]
        exact ⟨_, by simp, hhead⟩

theorem safe_iff (raws : List Text) :
    (∀ name ∈ (archiveNames raws).1, SafeName name) ↔ ∀ raw ∈ raws, ¬ DotAfterGap raw := by
  obtain ⟨hnames, hraws⟩ := names_heads raws
  constructor
  · intro h raw hraw hdot
    obtain ⟨name, hname, hhead⟩ := hraws raw hraw
    exact (h name hname).noDot (hhead.trans ((cleanedName_dot raw).mpr hdot))
  · intro h name hname
    obtain ⟨raw, hraw, hhead, hchars⟩ := hnames name hname
    have hnoDot : name.head? ≠ some '.' := by
      intro hdot
      exact h raw hraw ((cleanedName_dot raw).mp (hhead ▸ hdot))
    refine ⟨?_, ?_, ?_, hnoDot, ?_, ?_⟩
    · intro hnil
      rw [hnil] at hhead
      exact cleanedName_filled raw (List.head?_eq_none_iff.mp hhead.symm)
    · intro hmem
      exact absurd (hchars _ hmem) (by decide)
    · intro hmem
      exact absurd (hchars _ hmem) (by decide)
    · intro heq
      rw [heq] at hnoDot
      exact hnoDot rfl
    · intro heq
      rw [heq] at hnoDot
      exact hnoDot rfl

end Folding

section Entries
variable {media : Media} {rows : List MediaRow} {rooms : List Room} {found : MediaRow → Bool}

theorem namesOf_append (rows : List MediaRow) (row : MediaRow) : namesOf (rows ++ [row]) =
    (Function.update (namesOf rows).1 row.objectKey
      (some (archiveFilename row.filename (namesOf rows).2).1),
      (archiveFilename row.filename (namesOf rows).2).2) := by
  rw [namesOf, List.foldl_append]
  rfl

/-- Each file is called by its own name, in order. -/
theorem namesOf_map (hapart : (rows.map MediaRow.objectKey).Nodup) :
    (namesOf rows).2 = (archiveNames (rows.map MediaRow.filename)).2 ∧
      rows.map (fun row => (namesOf rows).1 row.objectKey) =
        (archiveNames (rows.map MediaRow.filename)).1.map some := by
  induction rows using List.reverseRecOn with
  | nil => exact ⟨rfl, rfl⟩
  | append_singleton rows row ih =>
    rw [List.map_append, List.map_singleton, List.nodup_append_comm, List.singleton_append,
      List.nodup_cons] at hapart
    obtain ⟨htaken, hnames⟩ := ih hapart.2
    rw [namesOf_append, List.map_append, List.map_singleton, archiveNames_append, htaken]
    refine ⟨rfl, ?_⟩
    have hearlier : rows.map (fun other => Function.update (namesOf rows).1 row.objectKey
          (some (archiveFilename row.filename (archiveNames (rows.map MediaRow.filename)).2).1)
            other.objectKey) =
        rows.map fun other => (namesOf rows).1 other.objectKey := by
      apply List.map_congr_left
      intro other hother
      apply Function.update_of_ne
      intro hsame
      exact hapart.1 (hsame ▸ List.mem_map_of_mem hother)
    rw [List.map_append, List.map_append, List.map_singleton, List.map_singleton, hearlier, hnames]
    dsimp only
    rw [Function.update_self]

/-- The files' entries are among the files' names, in order. -/
theorem media_sublist (names : List Text) (called : MediaRow → Option Text)
    (h : rows.map called = names.map some) :
    (rows.filterMap fun row => (called row).bind fun name =>
      if found row then some ("media/".toList ++ name)
        else none).Sublist (names.map ("media/".toList ++ ·)) := by
  induction rows generalizing names with
  | nil => exact List.nil_sublist _
  | cons row rows ih =>
    cases names with
    | nil => simp at h
    | cons name names =>
      rw [List.map_cons, List.map_cons, List.cons.injEq] at h
      rw [List.filterMap_cons, h.1, Option.bind_some, List.map_cons]
      by_cases hfound : found row = true
      · rw [if_pos hfound]
        exact (ih names h.2).cons_cons _
      · rw [if_neg hfound]
        exact (ih names h.2).cons _

theorem placeFor_spec (wanted : Text) (taken : List Text) :
    placeFor wanted taken ∉ taken ∧ ∃ rest, placeFor wanted taken = wanted ++ rest := by
  rw [placeFor]
  split
  · next hfree => exact ⟨hfree, [], (List.append_nil _).symm⟩
  · have hform : Function.Injective fun number => wanted ++ '-' :: digitsOf number := by
      intro number other h
      exact digitsOf_injective (List.cons.inj (List.append_cancel_left h)).2
    obtain ⟨number, hnumber, hfree⟩ := exists_free hform taken 2 (taken.length + 1) (by omega)
    cases hfind : (List.range' 2 (taken.length + 1)).find?
      (fun number => wanted ++ '-' :: digitsOf number ∉ taken) with
    | some number =>
      obtain ⟨hnew, -⟩ := List.find?_eq_some_iff_append.mp hfind
      exact ⟨by simpa using hnew, _, rfl⟩
    | none => exact absurd (List.find?_eq_none.mp hfind number hnumber) (by simpa using hfree)

theorem placesOf_append (rooms : List Room) (room : Room) :
    placesOf (rooms ++ [room]) = placesOf rooms ++ [placeFor room.wanted (placesOf rooms)] := by
  rw [placesOf, List.foldl_append]
  rfl

/-- Conversations have places of their own, under two folders. -/
theorem placesOf_spec (rooms : List Room) : (placesOf rooms).Nodup ∧
    ∀ place ∈ placesOf rooms, place.head? = some 'd' ∨ place.head? = some 'r' := by
  induction rooms using List.reverseRecOn with
  | nil => exact ⟨List.nodup_nil, fun place h => absurd h List.not_mem_nil⟩
  | append_singleton rooms room ih =>
    obtain ⟨hfree, rest, hplace⟩ := placeFor_spec room.wanted (placesOf rooms)
    rw [placesOf_append]
    constructor
    · rw [List.nodup_append_comm, List.singleton_append, List.nodup_cons]
      exact ⟨hfree, ih.1⟩
    · intro place hmem
      rcases List.mem_append.mp hmem with hearlier | hlast
      · exact ih.2 place hearlier
      · rw [List.mem_singleton.mp hlast, hplace, Room.wanted]
        cases room.direct with
        | true => exact Or.inl rfl
        | false => exact Or.inr rfl

/-- A conversation's three files, which differ in how their names end. -/
theorem pages_nodup {places : List Text} (h : places.Nodup) :
    (places.flatMap fun place =>
      [place ++ ".md".toList, place ++ ".html".toList, place ++ ".json".toList]).Nodup := by
  have hends :
      ∀ place other kind kind' : Text, kind ∈ [".md".toList, ".html".toList, ".json".toList] →
      kind' ∈ [".md".toList, ".html".toList, ".json".toList] → place ++ kind = other ++ kind' →
      place = other ∧ kind = kind' := by
    intro place other kind kind' hkind hkind' heq
    have hlast : kind.getLast? = kind'.getLast? := by
      have hboth := congrArg List.getLast? heq
      have hne : kind ≠ [] := by
        rintro rfl
        revert hkind
        decide
      have hne' : kind' ≠ [] := by
        rintro rfl
        revert hkind'
        decide
      rwa [List.getLast?_append_of_ne_nil _ hne, List.getLast?_append_of_ne_nil _ hne'] at hboth
    have hsame : kind = kind' := by
      simp only [List.mem_cons, List.not_mem_nil, or_false] at hkind hkind'
      rcases hkind with rfl | rfl | rfl <;> rcases hkind' with rfl | rfl | rfl <;>
        first | rfl | exact absurd hlast (by decide)
    rw [hsame] at heq
    exact ⟨List.append_cancel_right heq, hsame⟩
  have hpages :
      ∀ place : Text, [place ++ ".md".toList, place ++ ".html".toList, place ++ ".json".toList] =
      [".md".toList, ".html".toList, ".json".toList].map (place ++ ·) := fun place => rfl
  simp only [hpages]
  rw [List.nodup_flatMap]
  constructor
  · intro place _
    have hkinds : [".md".toList, ".html".toList, ".json".toList].Nodup := by decide
    exact hkinds.map fun kind kind' heq => List.append_cancel_left heq
  · apply h.imp
    intro place other hne page hplace hother
    obtain ⟨kind, hkind, rfl⟩ := List.mem_map.mp hplace
    obtain ⟨kind', hkind', heq⟩ := List.mem_map.mp hother
    exact hne (hends other place kind' kind hkind' hkind heq).1.symm

theorem entryNames_nodup (rooms : List Room) (media : Media) (found : MediaRow → Bool)
    (h : (archiveNames (media.rows.map MediaRow.filename)).1.Nodup) :
    (entryNames rooms media found).Nodup := by
  obtain ⟨hplaces, hfolders⟩ := placesOf_spec rooms
  have hsub := @media_sublist media.rows found (archiveNames (media.rows.map MediaRow.filename)).1
    (fun row => (namesOf media.rows).1 row.objectKey) (namesOf_map media.apart).2
  have hpage : ∀ page ∈ (placesOf rooms).flatMap fun place =>
      [place ++ ".md".toList, place ++ ".html".toList, place ++ ".json".toList],
      page.head? = some 'd' ∨ page.head? = some 'r' := by
    intro page hpage
    obtain ⟨place, hplace, hmem⟩ := List.mem_flatMap.mp hpage
    have hhead := hfolders place hplace
    have hne : place ≠ [] := by
      rintro rfl
      rcases hhead with hhead | hhead <;> cases hhead
    simp only [List.mem_cons, List.not_mem_nil, or_false] at hmem
    rcases hmem with rfl | rfl | rfl <;> rwa [List.head?_append_of_ne_nil _ hne]
  have hfile : ∀ file ∈ media.rows.filterMap (fun row =>
        ((namesOf media.rows).1 row.objectKey).bind fun name =>
      if found row then some ("media/".toList ++ name) else none), ∃ name,
        file = "media/".toList ++ name := by
    intro file hfile
    obtain ⟨name, -, rfl⟩ := List.mem_map.mp (hsub.subset hfile)
    exact ⟨name, rfl⟩
  unfold entryNames
  rw [List.nodup_append', List.nodup_append']
  refine ⟨⟨pages_nodup hplaces, by decide, ?_⟩, ?_, ?_⟩
  · intro page hin hfixed
    have hhead := hpage page hin
    revert hhead
    simp only [List.mem_cons, List.not_mem_nil, or_false] at hfixed
    rcases hfixed with rfl | rfl | rfl | rfl <;> decide
  · apply List.Nodup.sublist hsub
    exact h.map fun name other heq => List.append_cancel_left heq
  · intro name hin hmedia
    obtain ⟨rest, rfl⟩ := hfile name hmedia
    rcases List.mem_append.mp hin with hin | hin
    · have hhead := hpage _ hin
      rcases hhead with hhead | hhead <;> exact absurd hhead (by simp)
    · simp at hin

/-- Names are safe and apart just when none has a dot after a gap and there was room for each. -/
theorem safe_apart_iff (raws : List Text) : Safe raws ↔ (∀ raw ∈ raws, ¬ DotAfterGap raw) ∧
    ∀ before raw, before ++ [raw] <+: raws → HasRoom raw (archiveNames before).1 := by
  constructor
  · intro h
    exact ⟨(safe_iff raws).mp h.safe, (apart_iff raws).mp h.apart⟩
  · rintro ⟨hdots, hrooms⟩
    have hapart := (apart_iff raws).mpr hrooms
    refine ⟨hapart, (safe_iff raws).mpr hdots, ?_⟩
    intro media rooms found root opens hraws
    have hentries := entryNames_nodup rooms media found (by rw [hraws]; exact hapart)
    refine (hentries.filter _).map fun name other heq => ?_
    exact (List.cons.inj (List.append_cancel_left heq)).2

/-- A name that climbs out of the folder it is put in. -/
theorem dot_after_gap_climbs : ¬ Safe [". ..".toList] := by
  intro h
  exact (h.safe "..".toList (by decide)).notUp rfl

end Entries

end Linger.ArchiveNames
