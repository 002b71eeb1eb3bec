import Linger.CheckedText
import Linger.Names
import Mathlib.Data.List.Nodup

/-! The title and icon of a fetched page, read off its head: tags, their attributes, and the
entities in what they say. Texts are cut by byte, and a cut inside a character stops the code. -/
namespace Linger.PageHead
open CheckedText
open Names (Text trim isWhitespace)

section Entities

def lowered (text : Text) : Text := text.map Char.toLower

def digitValue (radix : ℕ) (c : Char) : Option ℕ :=
  let value :=
    if '0' ≤ c ∧ c ≤ '9' then some (c.toNat - 48)
    else if 'a' ≤ c.toLower ∧ c.toLower ≤ 'z' then some (c.toLower.toNat - 87)
    else none
  value.filter (· < radix)

/-- `u32::from_str_radix`: a plus sign may stand first. -/
def parseU32 (radix : ℕ) (text : Text) : Option ℕ :=
  let digits := if text.head? = some '+' then text.tail else text
  if digits.isEmpty then none
  else
    (digits.foldl (fun value c => value.bind fun value => (digitValue radix c).map fun digit =>
      value * radix + digit)
      (some 0)).filter (· < 2 ^ 32)

def charOf (code : ℕ) : Option Char := if code.isValidChar then some (Char.ofNat code) else none

def numericEntity (entity : Text) : Option Char :=
  match entity with
  | '#' :: 'x' :: hex | '#' :: 'X' :: hex => (parseU32 16 hex).bind charOf
  | '#' :: digits => (parseU32 10 digits).bind charOf
  | _ => none

def namedEntity (entity : Text) : Option Char :=
  let name := lowered entity
  if name = "amp".toList then some '&'
  else if name = "lt".toList then some '<'
  else if name = "gt".toList then some '>'
  else if name = "quot".toList then some '"'
  else if name = "apos".toList ∨ name = "#39".toList then some '\''
  else if name = "nbsp".toList then some ' '
  else numericEntity entity

/-- `rest[..rest.len().min(12)]`. -/
def lookAhead (rest : Text) : Run Text := bytesTo rest (min (byteLen rest) 12)

/-- The loop over ampersands; `window` is how far past one it looks for a semicolon. -/
def decodeFrom (window : Text → Run Text) : (turns : ℕ) → (out rest : Text) → Run Text
  | 0, _, _ => throw .turns
  | turns + 1, out, rest =>
    match find (· == '&') rest with
    | none => pure (out ++ rest)
    | some place => do
      let before ← bytesTo rest place
      let rest ← bytesFrom rest place
      let ahead ← window rest
      match find (· == ';') ahead with
      | none => do
        let rest ← bytesFrom rest 1
        decodeFrom window turns (out ++ before ++ ['&']) rest
      | some stop => do
        let upTo ← bytesTo rest stop
        let entity ← bytesFrom upTo 1
        let whole ← bytesTo rest (stop + 1)
        let rest ← bytesFrom rest (stop + 1)
        decodeFrom window turns (out ++ before ++ (namedEntity entity).elim whole fun c => [c]) rest

/-- `text.split_whitespace()`. -/
def splitWhitespace (text : Text) : List Text :=
  match _h : text.dropWhile isWhitespace with
  | [] => []
  | c :: rest =>
    (c :: rest.takeWhile fun c => !isWhitespace c) ::
      splitWhitespace (rest.dropWhile fun c => !isWhitespace c)
termination_by text.length
decreasing_by
  have hdrop := (List.dropWhile_sublist (l := text) isWhitespace).length_le
  have hrest := (List.dropWhile_sublist (l := rest) fun c => !isWhitespace c).length_le
  rw [_h, List.length_cons] at hdrop
  omega

def joinWords (text : Text) : Text := [' '].intercalate (splitWhitespace text)

def decodeWith (window : Text → Run Text) (text : Text) : Run Text :=
  joinWords <$> decodeFrom window (text.length + 1) [] text

def decodeEntities (text : Text) : Run Text := decodeWith lookAhead text

end Entities

section Tags

/-- The place of the first character from `place` on that `holds` does not hold of. -/
def skip (holds : Char → Bool) (chars : Text) (place : ℕ) : ℕ :=
  place + ((chars.drop place).takeWhile holds).length

def isNameChar (c : Char) : Bool := !(isWhitespace c || c == '=' || c == '/')

/-- The loop over a tag's attributes; `toLowercase` is Unicode's. -/
def attributesFrom (toLowercase : Text → Text) (chars : Text) :
    (turns place : ℕ) → List (Text × Text) → Run (List (Text × Text))
  | 0, _, _ => throw .turns
  | turns + 1, place, pairs =>
    if place < chars.length then do
      let start := skip (fun c => isWhitespace c || c == '/') chars place
      let stop := skip isNameChar chars start
      if stop = start then attributesFrom toLowercase chars turns (stop + 1) pairs
      else do
        let name ← toLowercase <$> slice chars start stop
        let place := skip isWhitespace chars stop
        if chars[place]? ≠ some '=' then
          attributesFrom toLowercase chars turns place (pairs ++ [(name, [])])
        else do
          let start := skip isWhitespace chars (place + 1)
          match chars[start]?.filter fun c => c == '"' || c == '\'' with
          | some quote => do
            let stop := skip (· != quote) chars (start + 1)
            let value ← slice chars (start + 1) stop
            attributesFrom toLowercase chars turns (stop + 1) (pairs ++ [(name, value)])
          | none => do
            let stop := skip (fun c => !isWhitespace c) chars start
            let value ← slice chars start stop
            attributesFrom toLowercase chars turns stop (pairs ++ [(name, value)])
    else pure pairs

def attributes (toLowercase : Text → Text) (inside : Text) : Run (List (Text × Text)) :=
  attributesFrom toLowercase inside (inside.length + 1) 0 []

def attr (pairs : List (Text × Text)) (name : Text) : Option Text :=
  (pairs.find? fun pair => pair.1 == name).map Prod.snd

structure Head where
  title : Option Text
  iconHref : Option Text

/-- What a page's reading has come to; `handed` is every text the decoder was given. -/
structure Reading where
  head : Head
  ogTitle : Option Text
  iconScore : ℤ
  handed : List Text

def readTitle (decode : Text → Run Text) (reading : Reading) (after : Text) : Run Reading :=
  if reading.head.title.isNone then do
    let text ← bytesTo after ((find (· == '<') after).getD (byteLen after))
    let decoded ← decode (trim text)
    let reading := { reading with handed := reading.handed ++ [trim text] }
    pure (if decoded.isEmpty then
      reading else { reading with head := { reading.head with title := some decoded } })
  else pure reading

def readMeta (toLowercase : Text → Text) (decode : Text → Run Text) (reading : Reading)
    (inside : Text) :
    Run Reading := do
  let attrs ← attributes toLowercase inside
  let key := lowered (((attr attrs "property".toList).or (attr attrs "name".toList)).getD [])
  if (key = "og:title".toList ∨ key = "twitter:title".toList) ∧ reading.ogTitle.isNone then
    match attr attrs "content".toList with
    | none => pure reading
    | some value => do
      let decoded ← decode (trim value)
      let reading := { reading with handed := reading.handed ++ [trim value] }
      pure (if decoded.isEmpty then reading else { reading with ogTitle := some decoded })
  else pure reading

def scoreOf (rel : Text) : ℤ :=
  if rel = "icon".toList ∨ rel = "shortcut icon".toList then 2
  else if rel = "apple-touch-icon".toList ∨ rel = "apple-touch-icon-precomposed".toList then 1
  else -1

def readLink (toLowercase : Text → Text) (decode : Text → Run Text) (reading : Reading)
    (inside : Text) :
    Run Reading := do
  let attrs ← attributes toLowercase inside
  let score := scoreOf (lowered ((attr attrs "rel".toList).getD []))
  if reading.iconScore < score then
    match attr attrs "href".toList with
    | none => pure reading
    | some value => do
      let href ← decode (trim value)
      let reading := { reading with handed := reading.handed ++ [trim value] }
      pure (if href.isEmpty || ".svg".toList.isSuffixOf (lowered href) then reading
        else { reading with
          head := { reading.head with iconHref := some href }, iconScore := score })
  else pure reading

def readTag (toLowercase : Text → Text) (decode : Text → Run Text) (name inside after : Text)
    (reading : Reading) :
    Run Reading :=
  if name = "title".toList then readTitle decode reading after
  else if name = "meta".toList then readMeta toLowercase decode reading inside
  else if name = "link".toList then readLink toLowercase decode reading inside
  else pure reading

/-- The loop over tags. -/
def readFrom (toLowercase : Text → Text) (decode : Text → Run Text) :
    (turns : ℕ) → Reading → Text → Run Reading
  | 0, _, _ => throw .turns
  | turns + 1, reading, rest =>
    match find (· == '<') rest with
    | none => pure reading
    | some start => do
      let rest ← bytesFrom rest (start + 1)
      let nameEnd :=
        (find (fun c => isWhitespace c || c == '>' || c == '/') rest).getD (byteLen rest)
      let name ← lowered <$> bytesTo rest nameEnd
      if name = "/head".toList ∨ name = "body".toList then pure reading
      else
        match find (· == '>') rest with
        | none => pure reading
        | some close => do
          let upTo ← bytesTo rest close
          let inside ← bytesFrom upTo nameEnd
          let after ← bytesFrom rest (close + 1)
          let reading ← readTag toLowercase decode name inside after reading
          readFrom toLowercase decode turns reading after

def readWith (toLowercase : Text → Text) (decode : Text → Run Text) (html : Text) : Run Reading :=
  readFrom toLowercase decode (html.length + 1) ⟨⟨none, none⟩, none, -1, []⟩ html

/-- The title a page wrote for a card comes before its own. -/
def Reading.result (reading : Reading) : Head :=
  match reading.ogTitle with
  | some text => { reading.head with title := some text }
  | none => reading.head

def readHead (toLowercase : Text → Text) (html : Text) : Run Head :=
  Reading.result <$> readWith toLowercase decodeEntities html

end Tags

section Wanted

/-- As much of a text as fits in `room` bytes. -/
def floorTo : (room : ℕ) → Text → Text
  | _, [] => []
  | room, c :: rest => if c.utf8Size ≤ room then c :: floorTo (room - c.utf8Size) rest else []

/-- That many bytes into the text, or at its end, no character is cut. -/
def OnBoundary (room : ℕ) (text : Text) : Prop :=
  byteLen (floorTo room text) = min (byteLen text) room

/-- The ampersands, with what follows them, at which decoding a text looks for a semicolon: it goes
on behind one, and behind the semicolon where there was one. -/
inductive StopsAt : Text → Text → Prop
  | here (before after : Text) (hbefore : '&' ∉ before) :
      StopsAt (before ++ '&' :: after) ('&' :: after)
  | plain (before after rest : Text) (hbefore : '&' ∉ before)
      (hnone : ';' ∉ floorTo 12 ('&' :: after))
    (hlater : StopsAt after rest) : StopsAt (before ++ '&' :: after) rest
  | entity (before name after rest : Text) (hbefore : '&' ∉ before) (hname : ';' ∉ name)
      (hroom : byteLen name ≤ 10)
    (hlater : StopsAt after rest) : StopsAt (before ++ '&' :: (name ++ ';' :: after)) rest

/-- Twelve bytes past every ampersand the decoder stops at, no character is cut. -/
def Steady (text : Text) : Prop := ∀ rest, StopsAt text rest → OnBoundary 12 rest

/-- Whitespace is single spaces. -/
def Tidy (text : Text) : Prop :=
  (∀ c ∈ text, isWhitespace c = true → c = ' ') ∧ text.IsChain fun c d => ¬ (c = ' ' ∧ d = ' ')

/-- A decoder that looks no further than the last whole character. -/
def decodeFloored (text : Text) : Run Text := decodeWith (fun rest => pure (floorTo 12 rest)) text

/-- The titles and addresses of a page that its reading decodes. -/
def handedTexts (toLowercase : Text → Text) (html : Text) : List Text :=
  match readWith toLowercase decodeFloored html with
  | .ok reading => reading.handed
  | .error _ => []

/-- Reading a page does not fail, and says things on one line. -/
structure Fine (toLowercase : Text → Text) (html : Text) : Prop where
  head : ∃ head, readHead toLowercase html = .ok head ∧
    ∀ text, head.title = some text ∨ head.iconHref = some text → Tidy text
  attributes : ∃ pairs, attributes toLowercase html = .ok pairs
  decodes : ∃ out, decodeEntities html = .ok out ∧ Tidy out
  same : '&' ∉ html → Tidy html → decodeEntities html = .ok html

end Wanted

section Cuts
variable {text before after part rest name : Text} {room place : ℕ} {mark : Char}

theorem splitAtByte_ok {parts : Text × Text} (h : splitAtByte text place = .ok parts) :
    text = parts.1 ++ parts.2 ∧ byteLen parts.1 = place := by
  fun_induction splitAtByte text place generalizing parts with
  | case1 text =>
    rw [← Except.ok.inj h]
    exact ⟨rfl, rfl⟩
  | case2 place => cases h
  | case3 c rest place hle ih =>
    cases hrest : splitAtByte rest (place + 1 - c.utf8Size) with
    | error stop =>
      rw [hrest] at h
      cases h
    | ok found =>
      rw [hrest] at h
      obtain ⟨hsplit, hlength⟩ := ih hrest
      rw [← Except.ok.inj h]
      refine ⟨by rw [hsplit]; rfl, ?_⟩
      rw [byteLen_cons, hlength]
      omega
  | case4 c rest place hle => cases h

theorem splitAtByte_error {stop : Stop} (h : splitAtByte text place = .error stop) :
    stop = .outOfRange := by
  fun_induction splitAtByte text place with
  | case1 text => cases h
  | case2 place => exact (Except.error.inj h).symm
  | case3 c rest place hle ih =>
    cases hrest : splitAtByte rest (place + 1 - c.utf8Size) with
    | error other =>
      rw [hrest] at h
      have hsame : other = stop := Except.error.inj h
      rw [hsame] at hrest
      exact ih hrest
    | ok found =>
      rw [hrest] at h
      cases h
  | case4 c rest place hle => exact (Except.error.inj h).symm

theorem floorTo_split (room : ℕ) (text : Text) :
    (∃ rest, text = floorTo room text ++ rest) ∧ byteLen (floorTo room text) ≤ room := by
  fun_induction floorTo room text with
  | case1 room => exact ⟨⟨[], rfl⟩, Nat.zero_le _⟩
  | case2 room c rest hle ih =>
    obtain ⟨⟨tail, htail⟩, hlength⟩ := ih
    refine ⟨⟨tail, by rw [List.cons_append, ← htail]⟩, ?_⟩
    rw [byteLen_cons]
    omega
  | case3 room c rest hle => exact ⟨⟨c :: rest, rfl⟩, Nat.zero_le _⟩

/-- What fits and is a beginning of the text is a beginning of as much as fits. -/
theorem floorTo_append (h : byteLen before ≤ room) :
    floorTo room (before ++ after) = before ++ floorTo (room - byteLen before) after := by
  induction before generalizing room with
  | nil => rfl
  | cons c before ih =>
    rw [byteLen_cons] at h
    rw [List.cons_append, floorTo, if_pos (by omega), ih (by omega), byteLen_cons, Nat.sub_sub,
      List.cons_append]

theorem lookAhead_boundary (h : OnBoundary 12 text) : lookAhead text = .ok (floorTo 12 text) := by
  obtain ⟨⟨rest, hrest⟩, -⟩ := floorTo_split 12 text
  have hcut := bytesTo_append (floorTo 12 text) rest
  rw [← hrest, h] at hcut
  exact hcut

theorem lookAhead_cut (h : ¬ OnBoundary 12 text) : lookAhead text = .error .outOfRange := by
  rw [lookAhead, bytesTo]
  cases hsplit : splitAtByte text (min (byteLen text) 12) with
  | error stop =>
    rw [splitAtByte_error hsplit]
    rfl
  | ok parts =>
    -- Then as much as fits ends there too.
    obtain ⟨htext, hlength⟩ := splitAtByte_ok hsplit
    have hfloor := @floorTo_append parts.1 parts.2 12 (by omega)
    rw [← htext] at hfloor
    obtain ⟨⟨rest, hrest⟩, hle⟩ := floorTo_split 12 text
    have hwhole : byteLen text = byteLen (floorTo 12 text) + byteLen rest := by
      conv_lhs => rw [hrest]
      exact byteLen_append _ _
    have hmore : byteLen parts.1 ≤ byteLen (floorTo 12 text) := by
      rw [hfloor, byteLen_append]
      omega
    exact absurd (by unfold OnBoundary; omega) h

/-- A mark is found where it first stands. -/
theorem find_mark : find (· == mark) text = some place →
    ∃ before after, text = before ++ mark :: after ∧ mark ∉ before ∧ place = byteLen before := by
  intro h
  obtain ⟨before, c, after, htext, hplace, hc⟩ := find_spec h
  rw [beq_iff_eq] at hc
  subst hc hplace htext
  refine ⟨before, after, rfl, fun hmem => ?_, rfl⟩
  have hnot := find_before h c hmem
  simp at hnot

theorem find_first (h : mark ∉ before) :
    find (· == mark) (before ++ mark :: after) = some (byteLen before) := by
  induction before with
  | nil => simp [find]
  | cons c before ih =>
    have hne : c ≠ mark := fun heq => h (heq ▸ List.mem_cons_self)
    rw [List.cons_append, find, if_neg (by simpa using hne),
      ih fun hmem => h (List.mem_cons_of_mem _ hmem)]
    rfl

theorem find_none_all {holds : Char → Bool} (h : find holds text = none) :
    ∀ c ∈ text, holds c = false := by
  intro c hmem
  induction text with
  | nil => cases hmem
  | cons d text ih =>
    rw [find] at h
    split at h
    · cases h
    · next hd =>
      rcases List.mem_cons.mp hmem with heq | hin
      · rw [heq]
        exact Bool.eq_false_iff.mpr hd
      · exact ih (Option.map_eq_none_iff.mp h) hin

theorem find_none : find (· == mark) text = none ↔ mark ∉ text := by
  constructor
  · intro h hmem
    obtain ⟨before, after, htext, hbefore⟩ := List.eq_append_cons_of_mem hmem
    rw [htext, find_first hbefore] at h
    cases h
  · intro h
    cases hfind : find (· == mark) text with
    | none => rfl
    | some place =>
      obtain ⟨before, after, htext, -⟩ := find_mark hfind
      rw [htext] at h
      exact absurd (by simp) h

end Cuts

section Decoding
variable {window : Text → Run Text} {turns : ℕ} {text out before after name rest : Text}

theorem decodeFrom_none (h : '&' ∉ rest) :
    decodeFrom window (turns + 1) out rest = .ok (out ++ rest) := by
  rw [decodeFrom, find_none.mpr h]
  rfl

/-- What stands before an ampersand is written, and the decoder looks ahead. -/
theorem decodeFrom_ampersand (h : '&' ∉ before) :
    decodeFrom window (turns + 1) out (before ++ '&' :: after) =
    (do
      let ahead ← window ('&' :: after)
      match find (· == ';') ahead with
      | none => do
        let rest ← bytesFrom ('&' :: after) 1
        decodeFrom window turns (out ++ before ++ ['&']) rest
      | some stop => do
        let upTo ← bytesTo ('&' :: after) stop
        let entity ← bytesFrom upTo 1
        let whole ← bytesTo ('&' :: after) (stop + 1)
        let rest ← bytesFrom ('&' :: after) (stop + 1)
        decodeFrom window turns (out ++ before ++ (namedEntity entity).elim whole fun c =>
          [c]) rest) := by
  rw [decodeFrom, find_first h]
  dsimp only
  rw [bytesTo_append, bytesFrom_append]
  rfl

theorem decodeFrom_plain (h : '&' ∉ before)
    (hwindow : window ('&' :: after) = .ok (floorTo 12 ('&' :: after)))
    (hnone : ';' ∉ floorTo 12 ('&' :: after)) :
    decodeFrom window (turns + 1) out (before ++ '&' :: after) =
      decodeFrom window turns (out ++ before ++ ['&']) after := by
  have hcut := bytesFrom_append ['&'] after
  rw [decodeFrom_ampersand h, hwindow]
  change (match find (· == ';') (floorTo 12 ('&' :: after)) with
    | none => _
    | some stop => _) = _
  rw [find_none.mpr hnone]
  change bytesFrom (['&'] ++ after) (byteLen ['&']) >>= _ = _
  rw [hcut]
  rfl

/-- What an entity is written as. -/
def writtenAs (name : Text) : Text := (namedEntity name).elim ('&' :: (name ++ [';'])) fun c => [c]

theorem decodeFrom_entity (h : '&' ∉ before)
    (hwindow : window ('&' :: (name ++ ';' :: after)) =
      .ok (floorTo 12 ('&' :: (name ++ ';' :: after))))
    (hname : ';' ∉ name) (hroom : byteLen name ≤ 10) :
    decodeFrom window (turns + 1) out (before ++ '&' :: (name ++ ';' :: after)) =
      decodeFrom window turns (out ++ before ++ writtenAs name) after := by
  have hamp : Char.utf8Size '&' = 1 := rfl
  have hsemi : Char.utf8Size ';' = 1 := rfl
  have hfloor :
      ∃ tail, floorTo 12 ('&' :: (name ++ ';' :: after)) = ('&' :: name) ++ ';' :: tail := by
    have hfits := @floorTo_append ('&' :: (name ++ [';'])) after 12 (by
      rw [byteLen_cons, byteLen_append, byteLen_cons, byteLen_nil]
      omega)
    refine ⟨floorTo (12 - byteLen ('&' :: (name ++ [';']))) after, ?_⟩
    rw [show '&' :: (name ++ ';' :: after) = '&' :: (name ++ [';']) ++ after by simp, hfits,
      show ∀ tail : Text, '&' :: (name ++ [';']) ++ tail = ('&' :: name) ++ ';' :: tail by simp]
  obtain ⟨tail, htail⟩ := hfloor
  have hnot : ';' ∉ '&' :: name := by
    intro hmem
    rcases List.mem_cons.mp hmem with heq | hmem
    · cases heq
    · exact hname hmem
  rw [decodeFrom_ampersand h, hwindow, htail]
  change (match find (· == ';') (('&' :: name) ++ ';' :: tail) with
    | none => _
    | some stop => _) = _
  rw [find_first hnot]
  dsimp only
  have hto := bytesTo_append ('&' :: name) (';' :: after)
  have hentity := bytesFrom_append ['&'] name
  have hwhole := bytesTo_append ('&' :: (name ++ [';'])) after
  have hrest := bytesFrom_append ('&' :: (name ++ [';'])) after
  have hlength : byteLen ('&' :: (name ++ [';'])) = byteLen ('&' :: name) + 1 := by
    rw [byteLen_cons, byteLen_append, byteLen_cons, byteLen_cons, byteLen_nil]
    omega
  have hsplit : '&' :: (name ++ [';']) ++ after = '&' :: (name ++ ';' :: after) := by simp
  rw [hlength, hsplit] at hwhole hrest
  rw [List.cons_append] at hto
  rw [hto, hwhole, hrest]
  change bytesFrom (['&'] ++ name) (byteLen ['&']) >>= _ = _
  rw [hentity]
  rfl

/-- Behind an ampersand there is a semicolon near, or none near. -/
theorem ampersand_cases (after : Text) : ';' ∉ floorTo 12 ('&' :: after) ∨
    ∃ name later, after = name ++ ';' :: later ∧ ';' ∉ name ∧ byteLen name ≤ 10 := by
  by_cases hmem : ';' ∈ floorTo 12 ('&' :: after)
  · right
    have hamp : Char.utf8Size '&' = 1 := rfl
    have hsemi : Char.utf8Size ';' = 1 := rfl
    rw [floorTo, if_pos (by omega), hamp] at hmem
    have hmem : ';' ∈ floorTo 11 after := by
      rcases List.mem_cons.mp hmem with heq | hmem
      · cases heq
      · exact hmem
    obtain ⟨name, tail, hsplit, hname⟩ := List.eq_append_cons_of_mem hmem
    obtain ⟨⟨rest, hrest⟩, hlength⟩ := floorTo_split 11 after
    rw [hsplit, byteLen_append, byteLen_cons] at hlength
    refine ⟨name, tail ++ rest, ?_, hname, by omega⟩
    calc after
      _ = floorTo 11 after ++ rest := hrest
      _ = name ++ ';' :: (tail ++ rest) := by rw [hsplit]; simp
  · exact Or.inl hmem

theorem steady_none (h : '&' ∉ text) : Steady text := by
  intro rest hstops
  cases hstops with
  | here before after => exact absurd (by simp) h
  | plain before after => exact absurd (by simp) h
  | entity before name after => exact absurd (by simp) h

theorem steady_plain (h : '&' ∉ before) (hnone : ';' ∉ floorTo 12 ('&' :: after)) :
    Steady (before ++ '&' :: after) ↔ OnBoundary 12 ('&' :: after) ∧ Steady after := by
  constructor
  · intro hsteady
    exact ⟨hsteady _ (.here before after h),
      fun rest hrest => hsteady rest (.plain before after rest h hnone hrest)⟩
  · rintro ⟨hhere, hlater⟩ rest hstops
    generalize htext : before ++ '&' :: after = text at hstops
    cases hstops with
    | here before' after' hbefore =>
      obtain ⟨-, hsame⟩ := split_unique h hbefore htext
      rw [← hsame]
      exact hhere
    | plain before' after' rest hbefore hnone' hrest =>
      obtain ⟨-, hsame⟩ := split_unique h hbefore htext
      rw [← hsame] at hrest
      exact hlater rest hrest
    | entity before' name after' rest hbefore hname hroom hrest =>
      -- There is a semicolon near after all.
      obtain ⟨-, hsame⟩ := split_unique h hbefore htext
      have hsemi : Char.utf8Size ';' = 1 := rfl
      have hamp : Char.utf8Size '&' = 1 := rfl
      have hfits := @floorTo_append ('&' :: (name ++ [';'])) after' 12 (by
        rw [byteLen_cons, byteLen_append, byteLen_cons, byteLen_nil]
        omega)
      apply absurd _ hnone
      rw [hsame, show '&' :: (name ++ ';' :: after') = '&' :: (name ++ [';']) ++ after' by simp,
        hfits]
      simp

theorem steady_entity (h : '&' ∉ before) (hname : ';' ∉ name) (hroom : byteLen name ≤ 10) :
    Steady (before ++ '&' :: (name ++ ';' :: after)) ↔
      OnBoundary 12 ('&' :: (name ++ ';' :: after)) ∧ Steady after := by
  constructor
  · intro hsteady
    exact ⟨hsteady _ (.here before _ h),
      fun rest hrest => hsteady rest (.entity before name after rest h hname hroom hrest)⟩
  · rintro ⟨hhere, hlater⟩ rest hstops
    generalize htext : before ++ '&' :: (name ++ ';' :: after) = text at hstops
    cases hstops with
    | here before' after' hbefore =>
      obtain ⟨-, hsame⟩ := split_unique h hbefore htext
      rw [← hsame]
      exact hhere
    | plain before' after' rest hbefore hnone hrest =>
      obtain ⟨-, hsame⟩ := split_unique h hbefore htext
      have hsemi : Char.utf8Size ';' = 1 := rfl
      have hamp : Char.utf8Size '&' = 1 := rfl
      have hfits := @floorTo_append ('&' :: (name ++ [';'])) after 12 (by
        rw [byteLen_cons, byteLen_append, byteLen_cons, byteLen_nil]
        omega)
      apply absurd _ hnone
      rw [← hsame, show '&' :: (name ++ ';' :: after) = '&' :: (name ++ [';']) ++ after by simp,
        hfits]
      simp
    | entity before' name' after' rest hbefore hname' hroom' hrest =>
      obtain ⟨-, hsame⟩ := split_unique h hbefore htext
      obtain ⟨-, hsame⟩ := split_unique hname hname' hsame
      rw [← hsame] at hrest
      exact hlater rest hrest

/-- The decoder that looks to whole characters returns, and the other does the same while it cuts
none; where it cuts one it stops. -/
theorem decodeFrom_steady (hturns : rest.length < turns) :
    (∃ value, decodeFrom (fun rest => pure (floorTo 12 rest)) turns out rest = .ok value) ∧
      (Steady rest → decodeFrom lookAhead turns out rest =
        decodeFrom (fun rest => pure (floorTo 12 rest)) turns out rest) ∧
      (¬ Steady rest → decodeFrom lookAhead turns out rest = .error .outOfRange) := by
  induction turns generalizing out rest with
  | zero => exact absurd hturns (Nat.not_lt_zero _)
  | succ turns ih =>
    by_cases hmem : '&' ∈ rest
    · obtain ⟨before, after, hrest, hbefore⟩ := List.eq_append_cons_of_mem hmem
      rw [hrest, List.length_append, List.length_cons] at hturns
      rw [hrest]
      have hfloored : (fun rest => pure (floorTo 12 rest) : Text → Run Text) ('&' :: after) =
          .ok (floorTo 12 ('&' :: after)) := rfl
      rcases ampersand_cases after with hnone | ⟨name, later, hafter, hname, hroom⟩
      · obtain ⟨hvalue, hsame, hstop⟩ := @ih (out ++ before ++ ['&']) after (by omega)
        rw [decodeFrom_plain hbefore hfloored hnone, steady_plain hbefore hnone]
        refine ⟨hvalue, ?_, ?_⟩
        · rintro ⟨hhere, hlater⟩
          rw [decodeFrom_plain hbefore (lookAhead_boundary hhere) hnone]
          exact hsame hlater
        · intro hnot
          by_cases hhere : OnBoundary 12 ('&' :: after)
          · rw [decodeFrom_plain hbefore (lookAhead_boundary hhere) hnone]
            exact hstop fun hlater => hnot ⟨hhere, hlater⟩
          · rw [decodeFrom_ampersand hbefore, lookAhead_cut hhere]
            rfl
      · subst hafter
        rw [List.length_append, List.length_cons] at hturns
        obtain ⟨hvalue, hsame, hstop⟩ := @ih (out ++ before ++ writtenAs name) later (by omega)
        rw [decodeFrom_entity hbefore hfloored hname hroom, steady_entity hbefore hname hroom]
        refine ⟨hvalue, ?_, ?_⟩
        · rintro ⟨hhere, hlater⟩
          rw [decodeFrom_entity hbefore (lookAhead_boundary hhere) hname hroom]
          exact hsame hlater
        · intro hnot
          by_cases hhere : OnBoundary 12 ('&' :: (name ++ ';' :: later))
          · rw [decodeFrom_entity hbefore (lookAhead_boundary hhere) hname hroom]
            exact hstop fun hlater => hnot ⟨hhere, hlater⟩
          · rw [decodeFrom_ampersand hbefore, lookAhead_cut hhere]
            rfl
    · refine ⟨⟨_, decodeFrom_none hmem⟩, fun _ => ?_, fun hnot => absurd (steady_none hmem) hnot⟩
      rw [decodeFrom_none hmem, decodeFrom_none hmem]

end Decoding

section Words
variable {text word rest : Text} {c : Char} {words : List Text}

theorem splitWhitespace_nil (h : text.dropWhile isWhitespace = []) : splitWhitespace text = [] := by
  rw [splitWhitespace]
  split
  · rfl
  · next hcons =>
    rw [h] at hcons
    cases hcons

theorem splitWhitespace_cons (h : text.dropWhile isWhitespace = c :: rest) : splitWhitespace text =
    (c :: rest.takeWhile fun c => !isWhitespace c) ::
    splitWhitespace (rest.dropWhile fun c => !isWhitespace c) := by
  rw [splitWhitespace]
  split
  · next hnil =>
    rw [h] at hnil
    cases hnil
  · next hcons =>
    rw [h, List.cons.injEq] at hcons
    rw [hcons.1, hcons.2]

theorem splitWhitespace_blank (h : isWhitespace c = true) :
    splitWhitespace (c :: text) = splitWhitespace text := by
  have hdrop : (c :: text).dropWhile isWhitespace = text.dropWhile isWhitespace :=
    List.dropWhile_cons_of_pos h
  cases hrest : text.dropWhile isWhitespace with
  | nil => rw [splitWhitespace_nil hrest, splitWhitespace_nil (hdrop.trans hrest)]
  | cons d rest => rw [splitWhitespace_cons hrest, splitWhitespace_cons (hdrop.trans hrest)]

/-- Words are not empty, and have no whitespace in them. -/
theorem words_solid (text : Text) :
    ∀ word ∈ splitWhitespace text, word ≠ [] ∧ ∀ c ∈ word, isWhitespace c = false := by
  fun_induction splitWhitespace text with
  | case1 text hdrop => simp
  | case2 text c rest hdrop ih =>
    intro word hword
    rcases List.mem_cons.mp hword with heq | hlater
    · rw [heq]
      refine ⟨List.cons_ne_nil _ _, ?_⟩
      have hfirst := List.head?_dropWhile_not isWhitespace text
      rw [hdrop] at hfirst
      intro d hd
      rcases List.mem_cons.mp hd with hsame | hin
      · rw [hsame]
        exact hfirst
      · simpa using List.mem_takeWhile_imp hin
    · exact ih word hlater

/-- Words with a space between them are tidy, and begin and end with no space. -/
theorem join_tidy (h : ∀ word ∈ words, word ≠ [] ∧ ∀ c ∈ word, isWhitespace c = false) :
    Tidy ([' '].intercalate words) ∧ ([' '].intercalate words).head? ≠ some ' ' ∧
      ([' '].intercalate words).getLast? ≠ some ' ' ∧
      (words ≠ [] → [' '].intercalate words ≠ []) := by
  have hblank : isWhitespace ' ' = true := by decide
  have hno : ∀ word ∈ words, ' ' ∉ word := by
    intro word hword hmem
    have hsolid := (h word hword).2 ' ' hmem
    rw [hblank] at hsolid
    cases hsolid
  have hchain : ∀ word ∈ words, word.IsChain fun c d => ¬ (c = ' ' ∧ d = ' ') := by
    intro word hword
    apply List.Pairwise.isChain
    apply List.pairwise_of_forall_mem_list
    rintro c hc d - ⟨hspace, -⟩
    exact hno word hword (hspace ▸ hc)
  induction words with
  | nil => exact ⟨⟨by simp, List.IsChain.nil⟩, by simp, by simp, by simp⟩
  | cons word words ih =>
    obtain ⟨hfilled, hsolid⟩ := h word List.mem_cons_self
    have hspace := hno word List.mem_cons_self
    have hhead : word.head? ≠ some ' ' := fun heq => hspace (List.mem_of_mem_head? heq)
    have hlast : word.getLast? ≠ some ' ' := fun heq => hspace (List.mem_of_mem_getLast? heq)
    obtain ⟨htidy, hfirst, hend, hsome⟩ := ih (fun w hw => h w (List.mem_cons_of_mem _ hw))
      (fun w hw => hno w (List.mem_cons_of_mem _ hw))
        (fun w hw => hchain w (List.mem_cons_of_mem _ hw))
    cases words with
    | nil =>
      rw [List.intercalate_singleton]
      refine ⟨⟨?_, hchain word List.mem_cons_self⟩, hhead, hlast, fun _ => hfilled⟩
      intro c hc hwhite
      rw [hsolid c hc] at hwhite
      cases hwhite
    | cons next words =>
      have hrest := hsome (List.cons_ne_nil _ _)
      rw [List.intercalate_cons_cons, List.append_assoc, List.singleton_append]
      generalize [' '].intercalate (next :: words) = later at htidy hfirst hend hrest
      refine ⟨⟨?_, ?_⟩, ?_, ?_, fun _ => List.append_ne_nil_of_left_ne_nil hfilled _⟩
      · intro c hc hwhite
        rcases List.mem_append.mp hc with hin | hin
        · rw [hsolid c hin] at hwhite
          cases hwhite
        · rcases List.mem_cons.mp hin with heq | hin
          · exact heq
          · exact htidy.1 c hin hwhite
      · refine List.isChain_append.mpr ⟨hchain word List.mem_cons_self,
          List.isChain_cons.mpr ⟨?_, htidy.2⟩, ?_⟩
        · rintro c hc ⟨-, hspace⟩
          exact hfirst (hspace ▸ hc)
        · rintro c hc d - ⟨hspace, -⟩
          exact hlast (hspace ▸ hc)
      · rw [List.head?_append_of_ne_nil _ hfilled]
        exact hhead
      · rw [List.getLast?_append_of_ne_nil _ (List.cons_ne_nil _ _),
          List.getLast?_cons_of_ne_nil hrest]
        exact hend

/-- A tidy text that begins and ends with no space is its words with a space between them. -/
theorem joinWords_same (htidy : Tidy text) (hfirst : text.head? ≠ some ' ')
    (hlast : text.getLast? ≠ some ' ') :
    joinWords text = text := by
  induction hlength : text.length using Nat.strong_induction_on generalizing text with
  | _ length ih =>
    unfold joinWords
    cases text with
    | nil => rw [splitWhitespace_nil List.dropWhile_nil]; rfl
    | cons c rest =>
      have hc : isWhitespace c = false := by
        by_contra hwhite
        have hspace := htidy.1 c List.mem_cons_self (by simpa using hwhite)
        exact hfirst (by rw [hspace]; rfl)
      rw [splitWhitespace_cons (List.dropWhile_cons_of_neg (by simp [hc]))]
      have hsplit : c :: rest = (c :: rest.takeWhile fun c => !isWhitespace c) ++
          rest.dropWhile fun c => !isWhitespace c := by
        rw [List.cons_append, List.takeWhile_append_dropWhile]
      cases hlater : rest.dropWhile fun c => !isWhitespace c with
      | nil =>
        rw [hlater, List.append_nil] at hsplit
        rw [splitWhitespace_nil List.dropWhile_nil, List.intercalate_singleton, ← hsplit]
      | cons d later =>
        have hd : isWhitespace d = true := by
          have hnot := List.head?_dropWhile_not (fun c => !isWhitespace c) rest
          rw [hlater] at hnot
          simpa using hnot
        rw [hlater] at hsplit
        have hmem : d ∈ c :: rest := by
          rw [hsplit]
          simp
        have hspace := htidy.1 d hmem hd
        -- What follows the one space is tidy too, and neither begins nor ends with one.
        have hchain := htidy.2
        rw [hsplit, hspace] at hchain
        obtain ⟨-, hchain, -⟩ := List.isChain_append.mp hchain
        obtain ⟨hnext, hchain⟩ := List.isChain_cons.mp hchain
        rw [hsplit, hspace, List.getLast?_append_of_ne_nil _ (List.cons_ne_nil _ _)] at hlast
        have hfilled : later ≠ [] := by
          rintro rfl
          exact hlast rfl
        rw [List.getLast?_cons_of_ne_nil hfilled] at hlast
        have hshorter : later.length < length := by
          have htotal := congrArg List.length hsplit
          rw [List.length_append, List.length_cons (a := d)] at htotal
          omega
        have hsame := @ih later.length hshorter later
          ⟨fun e he => htidy.1 e (by rw [hsplit]; simp [he]), hchain⟩
            (fun heq => hnext ' ' heq ⟨rfl, rfl⟩) hlast rfl
        unfold joinWords at hsame
        rw [splitWhitespace_blank hd]
        cases hwords : splitWhitespace later with
        | nil =>
          rw [hwords] at hsame
          exact absurd hsame.symm hfilled
        | cons word words =>
          rw [hwords] at hsame
          rw [List.intercalate_cons_cons, hsame, hsplit, hspace]
          simp

theorem joinWords_tidy (text : Text) : Tidy (joinWords text) ∧ (joinWords text).head? ≠ some ' ' ∧
    (joinWords text).getLast? ≠ some ' ' := by
  obtain ⟨htidy, hfirst, hlast, -⟩ := join_tidy (words_solid text)
  exact ⟨htidy, hfirst, hlast⟩

end Words

section Attributes
variable {toLowercase : Text → Text} {chars : Text} {holds : Char → Bool} {turns place : ℕ}
  {pairs : List (Text × Text)}

theorem le_skip (holds : Char → Bool) (chars : Text) (place : ℕ) : place ≤ skip holds chars place :=
  Nat.le_add_right _ _

theorem skip_le (h : place ≤ chars.length) : skip holds chars place ≤ chars.length := by
  have htake := (List.takeWhile_sublist (l := chars.drop place) holds).length_le
  rw [List.length_drop] at htake
  rw [skip]
  omega

/-- Each turn goes on by a character at least, and no part it takes lies outside. -/
theorem attributesFrom_returns (h : chars.length - place < turns) :
    Returns (attributesFrom toLowercase chars turns place pairs) fun _ => True := by
  induction turns generalizing place pairs with
  | zero => exact absurd h (Nat.not_lt_zero _)
  | succ turns ih =>
    rw [attributesFrom]
    split
    · next hplace =>
      have hstart := @skip_le chars (fun c => isWhitespace c || c == '/') place hplace.le
      have hstarts := le_skip (fun c => isWhitespace c || c == '/') chars place
      generalize skip (fun c => isWhitespace c || c == '/') chars place = start at hstart hstarts
      have hstop := @skip_le chars isNameChar start hstart
      have hstops := le_skip isNameChar chars start
      dsimp only
      generalize skip isNameChar chars start = stop at hstop hstops
      split
      · exact ih (by omega)
      · next hname =>
        have hpart : Returns (toLowercase <$> slice chars start stop) fun _ => True :=
          Returns.map (Returns.mono (slice_returns hstops hstop) fun _ _ => trivial)
        apply Returns.bind hpart
        intro name _ _
        have hafter := @skip_le chars isWhitespace stop hstop
        have hafters := le_skip isWhitespace chars stop
        generalize skip isWhitespace chars stop = after at hafter hafters
        split
        · exact ih (by omega)
        · next hequals =>
          have hlt : after < chars.length := by
            rw [not_not] at hequals
            exact (List.getElem?_eq_some_iff.mp hequals).1
          have hvalue := @skip_le chars isWhitespace (after + 1) hlt
          have hvalues := le_skip isWhitespace chars (after + 1)
          generalize skip isWhitespace chars (after + 1) = value at hvalue hvalues
          split
          · next quote hquote =>
            obtain ⟨hsome, -⟩ := Option.filter_eq_some_iff.mp hquote
            have hin := (List.getElem?_eq_some_iff.mp hsome).1
            have hend := @skip_le chars (· != quote) (value + 1) hin
            have hends := le_skip (· != quote) chars (value + 1)
            apply Returns.bind (slice_returns hends hend)
            intro text _ _
            exact ih (by omega)
          · have hend := @skip_le chars (fun c => !isWhitespace c) value hvalue
            have hends := le_skip (fun c => !isWhitespace c) chars value
            apply Returns.bind (slice_returns hends hend)
            intro text _ _
            exact ih (by omega)
    · exact Returns.pure trivial

theorem attributes_returns (toLowercase : Text → Text) (inside : Text) :
    ∃ pairs, attributes toLowercase inside = .ok pairs := by
  obtain ⟨pairs, hpairs, -⟩ :=
    @attributesFrom_returns toLowercase inside (inside.length + 1) 0 [] (by omega)
  exact ⟨pairs, hpairs⟩

end Attributes

section Pages
variable {toLowercase : Text →
  Text} {text rest name inside after : Text} {reading : Reading} {turns : ℕ}

theorem decode_steady (text : Text) : ∃ out, decodeFloored text = .ok out ∧ Tidy out ∧
    (Steady text → decodeEntities text = .ok out) ∧
    (¬ Steady text → decodeEntities text = .error .outOfRange) := by
  obtain ⟨⟨value, hvalue⟩, hsame, hstop⟩ :=
    @decodeFrom_steady (text.length + 1) [] text (Nat.lt_succ_self _)
  refine ⟨joinWords value, ?_, (joinWords_tidy value).1, ?_, ?_⟩
  · rw [decodeFloored, decodeWith, hvalue]
    rfl
  · intro hsteady
    rw [decodeEntities, decodeWith, hsame hsteady, hvalue]
    rfl
  · intro hnot
    rw [decodeEntities, decodeWith, hstop hnot]
    rfl

/-- What was read so far is on one line. -/
structure Reading.Tidied (reading : Reading) : Prop where
  title : ∀ text, reading.head.title = some text → Tidy text
  iconHref : ∀ text, reading.head.iconHref = some text → Tidy text
  ogTitle : ∀ text, reading.ogTitle = some text → Tidy text

/-- With the decoder that cuts no character the code goes on; with the other it does the same if
every text it hands over is steady, and stops if one is not. -/
def Follows (read : (Text → Run Text) → Run Reading) (reading : Reading) : Prop :=
  ∃ later texts, read decodeFloored = .ok later ∧ later.handed = reading.handed ++ texts ∧
    ((∀ text ∈ texts, Steady text) → read decodeEntities = .ok later) ∧
    ((∃ text ∈ texts, ¬ Steady text) → read decodeEntities = .error .outOfRange) ∧
    (reading.Tidied → later.Tidied)

theorem Follows.pure (reading : Reading) : Follows (fun _ => Pure.pure reading) reading :=
  ⟨reading, [], rfl, (List.append_nil _).symm, fun _ => rfl, fun h => by simp at h, id⟩

theorem Follows.bind {read : (Text → Run Text) → Run Reading}
    {next : (Text → Run Text) → Reading → Run Reading}
    (h : Follows read reading) (hnext : ∀ later, Follows (fun decode => next decode later) later) :
    Follows (fun decode => read decode >>= next decode) reading := by
  obtain ⟨middle, texts, hfloored, hhanded, hsame, hstop, htidied⟩ := h
  obtain ⟨later, more, hfloored', hhanded', hsame', hstop', htidied'⟩ := hnext middle
  refine ⟨later, texts ++ more, ?_, ?_, ?_, ?_, fun hreading => htidied' (htidied hreading)⟩
  · dsimp only
    rw [hfloored]
    exact hfloored'
  · rw [hhanded', hhanded, List.append_assoc]
  · intro hall
    dsimp only
    rw [hsame fun text htext => hall text (List.mem_append_left _ htext)]
    exact hsame' fun text htext => hall text (List.mem_append_right _ htext)
  · rintro ⟨text, htext, hnot⟩
    dsimp only
    by_cases hall : ∀ text ∈ texts, Steady text
    · rw [hsame hall]
      rcases List.mem_append.mp htext with hin | hin
      · exact absurd (hall text hin) hnot
      · exact hstop' ⟨text, hin, hnot⟩
    · have hsome : ∃ text ∈ texts, ¬ Steady text := by
        by_contra hnone
        exact hall fun text htext => by_contra fun hnot => hnone ⟨text, htext, hnot⟩
      rw [hstop hsome]
      rfl

/-- One text is handed over, and what it says kept. -/
theorem Follows.decode {keep : Text → Reading} (text : Text)
    (hhanded : ∀ out, (keep out).handed = reading.handed ++ [text])
    (htidied : ∀ out, Tidy out → reading.Tidied → (keep out).Tidied) :
    Follows (fun decode => decode text >>= fun out => Pure.pure (keep out)) reading := by
  obtain ⟨out, hfloored, htidy, hsame, hstop⟩ := decode_steady text
  refine ⟨keep out, [text], ?_, hhanded out, ?_, ?_, htidied out htidy⟩
  · dsimp only
    rw [hfloored]
    rfl
  · intro hall
    dsimp only
    rw [hsame (hall text (List.mem_singleton_self _))]
    rfl
  · rintro ⟨other, hother, hnot⟩
    rw [List.mem_singleton.mp hother] at hnot
    dsimp only
    rw [hstop hnot]
    rfl

theorem ok_bind {α β : Type} (value : α) (next : α → Run β) :
    (Except.ok value : Run α) >>= next = next value := rfl

theorem readTitle_follows (after : Text) (reading : Reading) :
    Follows (fun decode => readTitle decode reading after) reading := by
  unfold readTitle
  split
  · have hcut :
        ∃ words, bytesTo after ((find (· == '<') after).getD (byteLen after)) = .ok words := by
      cases hfind : find (· == '<') after with
      | none =>
        have hall := bytesTo_append after []
        rw [List.append_nil] at hall
        exact ⟨after, hall⟩
      | some place =>
        obtain ⟨before, later, rfl, -, rfl⟩ := find_mark hfind
        exact ⟨before, bytesTo_append _ _⟩
    obtain ⟨words, hwords⟩ := hcut
    rw [hwords]
    apply Follows.decode (trim words)
    · intro out
      dsimp only
      split <;> rfl
    · intro out hout hreading
      dsimp only
      split
      · exact ⟨hreading.title, hreading.iconHref, hreading.ogTitle⟩
      · exact ⟨fun text htext => Option.some.inj htext ▸ hout, hreading.iconHref, hreading.ogTitle⟩
  · exact Follows.pure reading

theorem readMeta_follows (toLowercase : Text → Text) (inside : Text) (reading : Reading) :
    Follows (fun decode => readMeta toLowercase decode reading inside) reading := by
  obtain ⟨attrs, hattrs⟩ := attributes_returns toLowercase inside
  unfold readMeta
  simp only [hattrs, ok_bind]
  split
  · split
    · exact Follows.pure reading
    · next value hvalue =>
      apply Follows.decode (trim value)
      · intro out
        split <;> rfl
      · intro out hout hreading
        split
        · exact ⟨hreading.title, hreading.iconHref, hreading.ogTitle⟩
        · exact ⟨hreading.title, hreading.iconHref, fun text htext => Option.some.inj htext ▸ hout⟩
  · exact Follows.pure reading

theorem readLink_follows (toLowercase : Text → Text) (inside : Text) (reading : Reading) :
    Follows (fun decode => readLink toLowercase decode reading inside) reading := by
  obtain ⟨attrs, hattrs⟩ := attributes_returns toLowercase inside
  unfold readLink
  simp only [hattrs, ok_bind]
  split
  · split
    · exact Follows.pure reading
    · next value hvalue =>
      apply Follows.decode (trim value)
      · intro out
        split <;> rfl
      · intro out hout hreading
        split
        · exact ⟨hreading.title, hreading.iconHref, hreading.ogTitle⟩
        · exact ⟨hreading.title, fun text htext => Option.some.inj htext ▸ hout, hreading.ogTitle⟩
  · exact Follows.pure reading

theorem readTag_follows (toLowercase : Text → Text) (name inside after : Text) (reading : Reading) :
    Follows (fun decode => readTag toLowercase decode name inside after reading) reading := by
  unfold readTag
  split
  · exact readTitle_follows after reading
  split
  · exact readMeta_follows toLowercase inside reading
  split
  · exact readLink_follows toLowercase inside reading
  · exact Follows.pure reading

/-- One turn of the loop: it is done, or a tag is read and the loop goes on behind it. -/
theorem readFrom_turn (toLowercase : Text → Text) (rest : Text) :
    (∀ decode turns reading, readFrom toLowercase decode (turns + 1) reading rest = .ok reading) ∨
      ∃ name inside after, after.length < rest.length ∧ ∀ decode turns reading,
        readFrom toLowercase decode (turns + 1) reading rest =
          readTag toLowercase decode name inside after reading >>= fun reading =>
            readFrom toLowercase decode turns reading after := by
  by_cases hopen : '<' ∈ rest
  · obtain ⟨before, tail, hrest, hbefore⟩ := List.eq_append_cons_of_mem hopen
    have hlt : Char.utf8Size '<' = 1 := rfl
    have hgt : Char.utf8Size '>' = 1 := rfl
    have htail := bytesFrom_append (before ++ ['<']) tail
    rw [byteLen_append, byteLen_cons, byteLen_nil, hlt, Nat.add_zero, List.append_assoc,
      List.singleton_append] at htail
    -- The tag's name ends before a blank, a slash or the tag's end, or where the page does.
    obtain ⟨start, more, hsplit, hplace, hnone⟩ : ∃ start more, tail = start ++ more ∧
        (find (fun c => isWhitespace c || c == '>' || c == '/') tail).getD (byteLen tail) =
          byteLen start ∧ '>' ∉ start := by
      cases hfind : find (fun c => isWhitespace c || c == '>' || c == '/') tail with
      | none =>
        refine ⟨tail, [], (List.append_nil _).symm, rfl, ?_⟩
        intro hmem
        obtain ⟨early, late, hsplit⟩ := List.append_of_mem hmem
        have hnone := find_none_all hfind '>' hmem
        simp at hnone
      | some place =>
        obtain ⟨start, c, more, htailEq, hplace, -⟩ := find_spec hfind
        subst htailEq hplace
        refine ⟨start, c :: more, rfl, rfl, ?_⟩
        intro hmem
        have hnot := find_before hfind '>' hmem
        simp at hnot
    have hname := bytesTo_append start more
    rw [← hsplit, ← hplace] at hname
    by_cases hend : lowered start = "/head".toList ∨ lowered start = "body".toList
    · left
      intro decode turns reading
      rw [readFrom, hrest, find_first hbefore]
      change (bytesFrom (before ++ '<' :: tail) (byteLen before + 1) >>= _) = _
      rw [htail]
      change (lowered <$> bytesTo tail _ >>= _) = _
      rw [hname]
      change (if lowered start = _ ∨ _ then _ else _) = _
      rw [if_pos hend]
      rfl
    · by_cases hclose : '>' ∈ tail
      · right
        obtain ⟨upTo, after, htailEq, hupTo⟩ := List.eq_append_cons_of_mem hclose
        -- The name is within the tag.
        obtain ⟨inside, hinside⟩ : ∃ inside, upTo = start ++ inside := by
          rw [hsplit] at htailEq
          rcases List.append_eq_append_iff.mp htailEq with
            ⟨inside, hupToEq, -⟩ | ⟨late, hstart, hmore⟩
          · exact ⟨inside, hupToEq⟩
          · cases late with
            | nil => exact ⟨[], by rw [hstart, List.append_nil, List.append_nil]⟩
            | cons c late =>
              have hc : c = '>' := (List.cons.inj hmore).1.symm
              rw [hstart, hc] at hnone
              exact absurd (by simp) hnone
        have hfrom := bytesFrom_append (upTo ++ ['>']) after
        rw [byteLen_append, byteLen_cons, byteLen_nil, hgt, Nat.add_zero, List.append_assoc,
          List.singleton_append, ← htailEq] at hfrom
        have hto := bytesTo_append upTo ('>' :: after)
        rw [← htailEq] at hto
        have hin := bytesFrom_append start inside
        rw [← hinside] at hin
        refine ⟨lowered start, inside, after, ?_, ?_⟩
        · rw [hrest, htailEq, List.length_append, List.length_cons, List.length_append,
            List.length_cons]
          omega
        · intro decode turns reading
          have hfound : find (· == '>') tail = some (byteLen upTo) := by
            rw [htailEq]
            exact find_first hupTo
          rw [readFrom, hrest, find_first hbefore]
          change (bytesFrom (before ++ '<' :: tail) (byteLen before + 1) >>= _) = _
          rw [htail]
          change (lowered <$> bytesTo tail _ >>= _) = _
          rw [hname]
          change (if lowered start = _ ∨ _ then _ else _) = _
          rw [if_neg hend, hfound]
          change (bytesTo tail (byteLen upTo) >>= _) = _
          rw [hto]
          change (bytesFrom upTo _ >>= _) = _
          rw [hplace, hin]
          change (bytesFrom tail (byteLen upTo + 1) >>= _) = _
          rw [hfrom]
          rfl
      · left
        intro decode turns reading
        rw [readFrom, hrest, find_first hbefore]
        change (bytesFrom (before ++ '<' :: tail) (byteLen before + 1) >>= _) = _
        rw [htail]
        change (lowered <$> bytesTo tail _ >>= _) = _
        rw [hname]
        change (if lowered start = _ ∨ _ then _ else _) = _
        rw [if_neg hend, find_none.mpr hclose]
        rfl
  · left
    intro decode turns reading
    rw [readFrom, find_none.mpr hopen]
    rfl

theorem readFrom_follows (h : rest.length < turns) (reading : Reading) :
    Follows (fun decode => readFrom toLowercase decode turns reading rest) reading := by
  induction turns generalizing rest reading with
  | zero => exact absurd h (Nat.not_lt_zero _)
  | succ turns ih =>
    rcases readFrom_turn toLowercase rest with hdone | ⟨name, inside, after, hshorter, hgoes⟩
    · simp only [hdone]
      exact Follows.pure reading
    · simp only [hgoes]
      exact Follows.bind (readTag_follows toLowercase name inside after reading) fun later =>
        ih (by omega) later

theorem read_follows (toLowercase : Text → Text) (html : Text) :
    ∃ reading, readWith toLowercase decodeFloored html = .ok reading ∧ reading.Tidied ∧
      ((∀ text ∈ handedTexts toLowercase html, Steady text) →
        readHead toLowercase html = .ok reading.result) ∧
      ((∃ text ∈ handedTexts toLowercase html, ¬ Steady text) →
        readHead toLowercase html = .error .outOfRange) := by
  obtain ⟨reading, texts, hfloored, hhanded, hsame, hstop, htidied⟩ :=
    @readFrom_follows toLowercase html (html.length + 1) (Nat.lt_succ_self _) ⟨⟨none, none⟩, none,
      -1, []⟩
  have hread : readWith toLowercase decodeFloored html = .ok reading := hfloored
  have htexts : handedTexts toLowercase html = texts := by
    rw [handedTexts, hread]
    exact hhanded
  rw [htexts]
  refine ⟨reading, hread, htidied ⟨by simp, by simp, by simp⟩, ?_, ?_⟩
  · intro hall
    have hreal : readWith toLowercase decodeEntities html = .ok reading := hsame hall
    rw [readHead, hreal]
    rfl
  · intro hsome
    have hreal : readWith toLowercase decodeEntities html = .error .outOfRange := hstop hsome
    rw [readHead, hreal]
    rfl

theorem Reading.Tidied.result (h : reading.Tidied) (text : Text)
    (htext : reading.result.title = some text ∨ reading.result.iconHref = some text) :
    Tidy text := by
  unfold Reading.result at htext
  split at htext
  · next og hog =>
    rcases htext with htitle | hicon
    · exact h.ogTitle text (hog.trans htitle)
    · exact h.iconHref text hicon
  · rcases htext with htitle | hicon
    · exact h.title text htitle
    · exact h.iconHref text hicon

/-- Reading a page is fine just when no character is cut behind an ampersand of it or of what its
reading decodes, and, where the page is all one tidy text, it begins and ends with no space. -/
theorem fine_iff (toLowercase : Text → Text) (html : Text) : Fine toLowercase html ↔
    (∀ text ∈ html :: handedTexts toLowercase html, Steady text) ∧
      ('&' ∉ html → Tidy html → html.head? ≠ some ' ' ∧ html.getLast? ≠ some ' ') := by
  obtain ⟨reading, -, htidied, hreads, hstops⟩ := read_follows toLowercase html
  obtain ⟨out, -, htidy, hdecodes, hcuts⟩ := decode_steady html
  constructor
  · intro h
    refine ⟨?_, ?_⟩
    · intro text htext
      by_contra hnot
      rcases List.mem_cons.mp htext with heq | hhanded
      · obtain ⟨out', hout, -⟩ := h.decodes
        rw [heq] at hnot
        rw [hcuts hnot] at hout
        cases hout
      · obtain ⟨head, hhead, -⟩ := h.head
        rw [hstops ⟨text, hhanded, hnot⟩] at hhead
        cases hhead
    · intro hamp hwhite
      have hsame := h.same hamp hwhite
      have hwords : decodeEntities html = .ok (joinWords html) := by
        rw [decodeEntities, decodeWith, decodeFrom_none hamp]
        rfl
      rw [hwords] at hsame
      have hfacts := joinWords_tidy html
      rw [Except.ok.inj hsame] at hfacts
      exact hfacts.2
  · rintro ⟨hsteady, hends⟩
    refine ⟨⟨_, hreads fun text htext => hsteady text (List.mem_cons_of_mem _ htext),
      htidied.result⟩, attributes_returns toLowercase html,
      ⟨out, hdecodes (hsteady html List.mem_cons_self), htidy⟩, ?_⟩
    intro hamp hwhite
    have hfirst := hends hamp hwhite
    rw [decodeEntities, decodeWith, decodeFrom_none hamp]
    change Except.ok (joinWords ([] ++ html)) = _
    rw [List.nil_append, joinWords_same hwhite hfirst.1 hfirst.2]

/-- A page whose title has a letter of two bytes across the twelfth byte behind an ampersand. -/
def accentedPage : Text := "<title>&aaaaaaaaaaé</title>".toList

theorem accented_title_stops : ¬ Fine id accentedPage := by
  intro h
  obtain ⟨head, hhead, -⟩ := h.head
  have hstop : readHead id accentedPage = .error .outOfRange := by rfl
  rw [hstop] at hhead
  cases hhead

end Pages

end Linger.PageHead
