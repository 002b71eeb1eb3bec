import Mathlib.Data.List.DropRight
import Linger.CheckedText
import Linger.Names

/-! A message body as HTML, for the archive's pages: the body is parsed into a closed set of nodes,
and every piece of text that reaches the page is escaped. -/
namespace Linger.ArchiveBody
open CheckedText
open Names (Text trim isWhitespace)

local instance textLawful : LawfulBEq (List Char) := inferInstance

/-- An address as the URL parser reads it. -/
structure Url where
  scheme : Text
  serialised : Text
  host : Option Text
deriving DecidableEq

/-- What is not this module's: the URL parser and Unicode's tables. -/
structure Outside where
  parse : Text → Option Url
  isAlphanumeric : Char → Bool
  isAlphabetic : Char → Bool
  toLowercase : Text → Text

def maxBlockDepth : ℕ := 4
def maxInlineDepth : ℕ := 6

/-- Characters a backslash can make literal. -/
def escapable : Text := "\\`*_~[]()>#+-.!@".toList

inductive Inline
  | text (words : Text)
  | code (words : Text)
  | strong (children : List Inline)
  | em (children : List Inline)
  | strike (children : List Inline)
  | link (href : Text) (children : List Inline)

inductive Block
  | paragraph (children : List Inline)
  | quote (children : List Block)
  | code (words : Text)
  | list (ordered : Bool) (start : ℕ) (items : List (List Inline))

def escape (text : Text) : Text :=
  text.flatMap fun
    | '&' => "&amp;".toList
    | '<' => "&lt;".toList
    | '>' => "&gt;".toList
    | '"' => "&quot;".toList
    | '\'' => "&#39;".toList
    | c => [c]

def schemes : List Text := ["http".toList, "https".toList, "mailto".toList]

def safeHref (outside : Outside) (raw : Text) : Option Text :=
  (outside.parse (trim raw)).bind fun url => if url.scheme ∈ schemes then some url.serialised
    else none

mutual

def flattenNode : Inline → Text
  | .text words | .code words => words
  | .strong children | .em children | .strike children | .link _ children => flattenInline children

def flattenInline : List Inline → Text
  | [] => []
  | node :: nodes => flattenNode node ++ flattenInline nodes

end

section Lines

/-- `line.trim_start_matches(' ')`. -/
def trimStartSpaces (line : Text) : Text := line.dropWhile (· == ' ')

/-- The line after up to three leading spaces, or nothing if it has more. -/
def indented (line : Text) : Tried Text := do
  let spaces := byteLen line - byteLen (trimStartSpaces line)
  if spaces ≤ 3 then OptionT.lift (bytesFrom line spaces) else failure

/-- A run of three or more of one fence character at the start. -/
def fenceRun : Text → Option (Char × ℕ)
  | [] => none
  | first :: rest =>
    if first ≠ '`' ∧ first ≠ '~' then none
    else
      let run := ((first :: rest).takeWhile (· == first)).length
      if 3 ≤ run then some (first, run) else none

/-- An opening fence: the run, then at most one word. -/
def fenceOpen (line : Text) : Tried (Char × ℕ) := do
  let rest ← indented line
  let (ch, run) ← found (fenceRun rest)
  let info ← OptionT.lift (trim <$> bytesFrom rest run)
  if info.any isWhitespace = false then return (ch, run) else failure

/-- A closing fence: the run and nothing else. -/
def fenceClose (line : Text) : Tried (Char × ℕ) := do
  let rest ← indented line
  let (ch, run) ← found (fenceRun rest)
  let after ← OptionT.lift (trim <$> bytesFrom rest run)
  if after.isEmpty then return (ch, run) else failure

/-- `text.strip_prefix(first)`. -/
def stripFirst (first : Char) : Text → Option Text
  | [] => none
  | c :: rest => if c = first then some rest else none

/-- A quoted line's text, without its `>` and one space after it. -/
def quoteLine (line : Text) : Tried Text := do
  let rest ← indented line
  let rest ← found (stripFirst '>' rest)
  return (stripFirst ' ' rest).getD rest

/-- A bullet item's text: `-`, `*` or `+`, then at least one space. -/
def bullet (line : Text) : Tried Text := do
  let rest ← indented line
  let rest ← found ((stripFirst '-' rest).orElse fun _ => (stripFirst '*' rest).orElse fun _ =>
    stripFirst '+' rest)
  let text := trimStartSpaces rest
  if byteLen text < byteLen rest then return text else failure

/-- `digits.parse::<u32>()`. -/
def parseNumber (digits : Text) : Option ℕ :=
  let number := digits.foldl (fun number digit => 10 * number + (digit.toNat - '0'.toNat)) 0
  if digits ≠ [] ∧ digits.all Char.isDigit ∧ number < 2 ^ 32 then some number else none

/-- A numbered item: its number and its text. `1.` or `1)`, one to nine digits. -/
def numbered (line : Text) : Tried (ℕ × Text) := do
  let rest ← indented line
  let digits := (rest.takeWhile Char.isDigit).length
  if digits = 0 ∨ 9 < digits then failure
  else
    let after ← OptionT.lift (bytesFrom rest digits)
    let after ← found ((stripFirst '.' after).orElse fun _ => stripFirst ')' after)
    let text := trimStartSpaces after
    if byteLen text = byteLen after then failure
    else
      let typed ← OptionT.lift (bytesTo rest digits)
      let number ← found (parseNumber typed)
      return (number, text)

def Tried.isSome {α : Type} (tried : Tried α) : Run Bool := Option.isSome <$> tried.run

/-- Whether a line ends the paragraph before it. -/
def startsBlock (line : Text) : Run Bool := do
  if ← Tried.isSome (fenceOpen line) then return true
  else if ← Tried.isSome (quoteLine line) then return true
  else if ← Tried.isSome (bullet line) then return true
  else Tried.isSome (numbered line)

end Lines

section Addresses

def trimmedMarks : Text := ['.', ',', ';', ':', '!', '?', '\'', '"']

/-- The loop of `trim_address`, which takes one closing paren off in a turn. -/
def trimParens : (turns : ℕ) → Text → Run Text
  | turns, raw =>
    if raw.getLast? = some ')' ∧ raw.count '(' < raw.count ')' then
      match turns with
      | 0 => throw .turns
      | turns + 1 => do trimParens turns (← bytesTo raw (byteLen raw - 1))
    else return raw

/-- An address without the sentence around it: a trailing full stop is the sentence's, and a closing
paren is the address's only if it opened one. -/
def trimAddress (found : Text) : Run Text :=
  let raw := found.rdropWhile (· ∈ trimmedMarks)
  trimParens raw.length raw

def webHost (outside : Outside) (href : Text) : Option Text :=
  (outside.parse href).bind fun url =>
    if url.scheme ∈ ["http".toList, "https".toList] then url.host.filter fun host => !host.isEmpty
      else none

/-- What a link's words name, when they read as an address or a domain. -/
structure WordsHost where
  host : Text
  typed : Text
  userinfo : Bool

/-- `scheme://` at the start: a letter, then letters, digits, `+`, `.`, `-`. -/
def hasScheme (text : Text) : Run Bool := do
  match findText "://".toList text with
  | none => return false
  | some stop =>
    let scheme ← bytesTo text stop
    return scheme.head?.any Char.isAlpha && scheme.tail.all fun c => c.isAlphanum ||
      c ∈ ['+', '.', '-']

def splitOnce (mark : Char) (text : Text) : Option (Text × Text) :=
  if mark ∈ text then some (text.takeWhile (· ≠ mark), (text.dropWhile (· ≠ mark)).tail) else none

theorem splitOnce_some {mark : Char} {text before rest : Text} :
    splitOnce mark text = some (before, rest) ↔ text = before ++ mark :: rest ∧ mark ∉ before := by
  rw [splitOnce]
  constructor
  · intro h
    split at h
    · next hmem =>
      rw [Option.some.injEq, Prod.mk.injEq] at h
      have hdrop : text.dropWhile (· ≠ mark) ≠ [] := by
        intro hnil
        have hall := List.dropWhile_eq_nil_iff.mp hnil mark hmem
        simp at hall
      have hhead := List.head_dropWhile_not (· ≠ mark) hdrop
      have hfirst : (text.dropWhile (· ≠ mark)).head hdrop = mark := by simpa using hhead
      have hcons := List.cons_head_tail hdrop
      rw [hfirst] at hcons
      have hnotin : mark ∉ before := by
        rw [← h.1]
        intro hin
        simpa using List.mem_takeWhile_imp hin
      refine ⟨?_, hnotin⟩
      calc text
        _ = text.takeWhile (· ≠ mark) ++ text.dropWhile (· ≠ mark) :=
          List.takeWhile_append_dropWhile.symm
        _ = before ++ mark :: rest := by rw [← h.1, ← h.2, hcons]
    · cases h
  · rintro ⟨htext, hnotin⟩
    have htake : text.takeWhile (· ≠ mark) = before := by
      rw [htext, List.takeWhile_append_of_pos]
      · simp
      · intro c hc
        have hne : c ≠ mark := fun heq => hnotin (heq ▸ hc)
        simp [hne]
    have hdrop : text.dropWhile (· ≠ mark) = mark :: rest := by
      rw [htext, List.dropWhile_append_of_pos]
      · simp
      · intro c hc
        have hne : c ≠ mark := fun heq => hnotin (heq ▸ hc)
        simp [hne]
    have hmem : mark ∈ text := by
      rw [htext]
      simp
    rw [if_pos hmem, htake, hdrop, List.tail_cons]

theorem splitOnce_none {mark : Char} {text : Text} (h : splitOnce mark text = none) :
    mark ∉ text := by
  intro hmem
  rw [splitOnce, if_pos hmem] at h
  cases h

def rsplitOnce (mark : Char) (text : Text) : Option (Text × Text) :=
  (splitOnce mark text.reverse).map fun (after, before) => (before.reverse, after.reverse)

theorem rsplitOnce_some {mark : Char} {text before rest : Text}
    (h : rsplitOnce mark text = some (before, rest)) :
    text = before ++ mark :: rest := by
  obtain ⟨⟨after, first⟩, hsplit, hpair⟩ := Option.map_eq_some_iff.mp h
  rw [Prod.mk.injEq] at hpair
  calc text
    _ = text.reverse.reverse := (List.reverse_reverse _).symm
    _ = first.reverse ++ mark :: after.reverse := by rw [(splitOnce_some.mp hsplit).1]; simp
    _ = before ++ mark :: rest := by rw [hpair.1, hpair.2]

/-- Words that read as a bare domain, maybe with a port and a path: at least one dot, no spaces. -/
def bareDomain (text : Text) : Run Bool := do
  let hostPort ← bytesTo text ((find (· ∈ ['/', '?', '#']) text).getD (byteLen text))
  let bare (host : Text) : Bool :=
    !(host.any fun c => c ∈ ['@', ':', '\\'] || isWhitespace c) &&
      (rfind '.' host).any fun dot => decide (1 ≤ dot ∧ dot + 1 < byteLen host)
  return match splitOnce ':' hostPort with
    | some (host, port) =>
      decide (1 ≤ byteLen port ∧ byteLen port ≤ 5) && port.all Char.isDigit && bare host
    | none => bare hostPort

/-- A host without its `:port`. -/
def stripPort (host : Text) : Text :=
  match rsplitOnce ':' host with
  | some (name, port) => if port.all Char.isDigit then name else host
  | none => host

/-- Four numbers with dots, as people write an IPv4 address. -/
def dottedQuad (text : Text) : Bool :=
  let parts := text.splitOn '.'
  parts.length = 4 && parts.all fun part => decide (1 ≤ byteLen part ∧ byteLen part ≤ 3) &&
    part.all Char.isDigit

/-- The last label of a name: two or more letters in any alphabet, or an `xn--` name. -/
def topLabel (outside : Outside) (label : Text) : Bool :=
  let lower := label.map Char.toLower
  if "xn--".toList.isPrefixOf lower then
    let rest := lower.drop 4
    !rest.isEmpty && rest.all fun c => c.isLower || c.isDigit || c = '-'
  else 2 ≤ label.length && label.all outside.isAlphabetic

def stripLast (last : Char) (text : Text) : Text :=
  if text.getLast? = some last then text.dropLast else text

/-- What of an authority stands after its `@`. -/
def afterAt (authority : Text) : Option ℕ → Run Text
  | none => return authority
  | some place => bytesFrom authority (place + 1)

def wordsHost (outside : Outside) (words : Text) : Tried WordsHost := do
  let trimmed ← OptionT.lift (trimAddress (trim words))
  -- Full stops from other alphabets are read as dots by the URL parser, so they are here too.
  let text := trimmed.map fun c => if c ∈ ['\u3002', '\uff0e', '\uff61'] then '.' else c
  if text.isEmpty ∨ text.any isWhitespace then failure
  else
    let (url, authority) ← urlAndAuthority text
    let place := rfind '@' authority
    let hostPart ← OptionT.lift (afterAt authority place)
    let typed := outside.toLowercase (stripPort hostPart)
    let labels := (stripLast '.' typed).splitOn '.'
    let top := labels.getLast?.getD []
    if labels.length < 2 ∨ !(dottedQuad typed || topLabel outside top) then failure
    else
      let host ← found (url.host.filter fun host => !host.isEmpty)
      return ⟨host, typed, place.isSome⟩
where
  urlAndAuthority (text : Text) : Tried (Url × Text) := do
    if ← OptionT.lift (hasScheme text) then
      let url ← found (outside.parse text)
      if url.scheme ∈ ["http".toList, "https".toList] then
        let slashes ← found (findText "//".toList text)
        let after ← OptionT.lift (bytesFrom text (slashes + 2))
        return (url, after.takeWhile (· ∉ ['/', '?', '#', '\\']))
      else failure
    else if ← OptionT.lift (bareDomain text) then
      let url ← found (outside.parse ("https://".toList ++ text))
      return (url, text.takeWhile (· ∉ ['/', '?', '#']))
    else failure

/-- A host without a trailing dot or a leading `www.`. -/
def bareHost (host : Text) : Text :=
  let host := stripLast '.' host
  if "www.".toList.isPrefixOf host then host.drop 4 else host

def sameSite (a b : Text) : Bool :=
  let left := bareHost a
  let right := bareHost b
  left == right || ('.' :: right).isSuffixOf left || ('.' :: left).isSuffixOf right

/-- The host a link really goes to, when its words name a different one. -/
def disguisedHost (outside : Outside) (words href : Text) : Tried Text := do
  let real ← found (webHost outside href)
  let said ← wordsHost outside words
  if said.userinfo then return real
  else if said.typed.all (fun c => ' ' ≤ c && c ≤ '~') = false then return real
  else if sameSite said.host real = false then return real
  else failure

end Addresses

section Inlines

def isWord (outside : Outside) (ch : Option Char) : Bool :=
  ch.any fun c => outside.isAlphanumeric c || c == '_'

def startsWithAt (source : Text) (place : ℕ) (pattern : Text) : Bool :=
  place + pattern.length ≤ source.length &&
    (source.take (place + pattern.length)).drop place == pattern

/-- How many of one character stand at the start of what is left. -/
def runLength (rest : Text) (ch : Char) : ℕ := (rest.takeWhile (· == ch)).length

/-- The next run of exactly `length` of a character; `skip` characters of a run of another length
are still to be passed. -/
def findRun (ch : Char) (length : ℕ) : (skip : ℕ) → (rest : Text) → (place : ℕ) → Option ℕ
  | _, [], _ => none
  | skip + 1, _ :: rest, place => findRun ch length skip rest (place + 1)
  | 0, c :: rest, place =>
    if c ≠ ch then findRun ch length 0 rest (place + 1)
    else
      let run := runLength (c :: rest) ch
      if run = length then some place else findRun ch length (run - 1) rest (place + 1)

def matchCode (source : Text) (place : ℕ) : Tried (Inline × ℕ) := do
  let rest ← OptionT.lift (slice source place source.length)
  let run := runLength rest '`'
  let close ← found (findRun '`' run 0 (source.drop (place + run)) (place + run))
  let text ← OptionT.lift (slice source (place + run) close)
  -- One space either side is the delimiter's.
  if 2 < text.length ∧ text.head? = some ' ' ∧ text.getLast? = some ' ' then
    let text ← OptionT.lift (do bytesFrom (← bytesTo text (byteLen text - 1)) 1)
    return (.code text, close + run)
  else return (.code text, close + run)

/-- From an opening bracket to its partner, honouring nesting and escapes. -/
def matchBracket (opening closing : Char) : (depth : ℕ) → (rest : Text) → (place : ℕ) → Option ℕ
  | _, [], _ => none
  | _, ['\\'], _ => none
  | depth, '\\' :: _ :: rest, place => matchBracket opening closing depth rest (place + 2)
  | depth, c :: rest, place =>
    if c = opening then matchBracket opening closing (depth + 1) rest (place + 1)
    else if c = closing then
      if depth - 1 = 0 then some place
        else matchBracket opening closing (depth - 1) rest (place + 1)
    else matchBracket opening closing depth rest (place + 1)

/-- A link's address without a title after it. -/
def withoutTitle (target : Text) : Run Text := do
  match find isWhitespace target with
  | none => return target
  | some space =>
    let (address, rest) ← splitAtByte target space
    let rest := rest.dropWhile isWhitespace
    let within (first last : Char) : Bool := rest.head? = some first && rest.getLast? = some last
    if 2 ≤ byteLen rest ∧ (within '"' '"' || within '\'' '\'' || within '(' ')') then return address
    else return target

/-- A link; `parse` reads its words, one deeper and with no link in them. -/
def matchLink (outside : Outside) (parse : Text → Run (List Inline)) (source : Text) (place : ℕ) :
    Tried (Inline × ℕ) := do
  let labelEnd ← found (matchBracket '[' ']' 0 (source.drop place) place)
  if source[labelEnd + 1]? ≠ some '(' then failure
  else
    let targetEnd ← found (matchBracket '(' ')' 0 (source.drop (labelEnd + 1)) (labelEnd + 1))
    let target ← OptionT.lift (slice source (labelEnd + 2) targetEnd)
    -- A refused scheme isn't stripped: the whole thing stays as the characters typed.
    let address ← OptionT.lift (withoutTitle (trim target))
    let href ← found (safeHref outside address)
    let label ← OptionT.lift (slice source (place + 1) labelEnd)
    let children ← OptionT.lift (parse label)
    return (.link href children, targetEnd + 1)

def startsWithIgnoringCase : (rest pattern : Text) → Bool
  | _, [] => true
  | [], _ :: _ => false
  | c :: rest, expected :: pattern =>
    c.toLower = expected.toLower && startsWithIgnoringCase rest pattern

def matchAutolink (outside : Outside) (source : Text) (place : ℕ) : Tried (Inline × ℕ) := do
  let scheme ← found <|
    if startsWithIgnoringCase (source.drop place) "https://".toList then some 8
    else if startsWithIgnoringCase (source.drop place) "http://".toList then some 7 else none
  let rest ← OptionT.lift (slice source place source.length)
  let length := (rest.takeWhile fun c => !(isWhitespace c || c == '<' || c == '>')).length
  if length ≤ scheme then failure
  else
    let taken ← OptionT.lift (slice source place (place + length))
    let raw ← OptionT.lift (trimAddress taken)
    let href ← found (safeHref outside raw)
    return (.link href [.text raw], place + raw.length)

inductive Emphasis
  | strike
  | strong
  | em

def Emphasis.node : Emphasis → List Inline → Inline
  | .strike => .strike
  | .strong => .strong
  | .em => .em

/-- Openers, longest first. -/
def emphasis : List (Text × Emphasis) :=
  [("~~".toList, .strike), ("**".toList, .strong), ("__".toList, .strong), ("*".toList, .em),
    ("_".toList, .em)]

/-- The first place from `start` on where the opener closes what it opened. -/
def findClose (outside : Outside) (source opener : Text) (start : ℕ) : Tried ℕ :=
  let underscore := opener.head? = some '_'
  (List.range' start (source.length + 1 - (start + opener.length))).firstM fun search => do
    if startsWithAt source search opener then
      let before ← OptionT.lift (index source (search - 1))
      if !isWhitespace before ∧ (!underscore ∨ !isWord outside source[search + opener.length]?) then
        return search
      else failure
    else failure

/-- One opener; `parse` reads what stands between, one deeper. -/
def matchOpener (outside : Outside) (parse : Text → Run (List Inline)) (source : Text) (place : ℕ)
    (before : Option Char) (opener : Text) (kind : Emphasis) : Tried (Inline × ℕ) := do
  let start := place + opener.length
  if !startsWithAt source place opener then failure
  -- Underscores only open at a word boundary.
  else if opener.head? = some '_' ∧ isWord outside before then failure
  -- No span opens on whitespace.
  else if source[start]?.all isWhitespace then failure
  else
    let close ← findClose outside source opener (start + 1)
    let inner ← OptionT.lift (slice source start close)
    let children ← OptionT.lift (parse inner)
    return (kind.node children, close + opener.length)

def matchEmphasis (outside : Outside) (parse : Text → Run (List Inline)) (source : Text) (place : ℕ)
    (before : Option Char) : Tried (Inline × ℕ) :=
  emphasis.firstM fun (opener, kind) => matchOpener outside parse source place before opener kind

/-- What starts at a place, and where it ends. `parse` reads what stands within it, and is absent
where nothing may be nested deeper. -/
def matchNode (outside : Outside) (parse : Option (Bool → Text → Run (List Inline))) (inLink : Bool)
    (source : Text) (place : ℕ) (ch : Char) (before : Option Char) : Tried (Inline × ℕ) :=
  (if ch = '`' then matchCode source place else failure) <|>
  (match parse with
    | some parse =>
      if ch = '[' ∧ !inLink then matchLink outside (parse true) source place else failure
    | none => failure) <|>
  (match parse with
    | some parse => matchEmphasis outside (parse inLink) source place before
    | none => failure) <|>
  (if (ch = 'h' ∨ ch = 'H') ∧ !inLink ∧ !isWord outside before then
    matchAutolink outside source place else failure)

/-- The character a backslash makes literal at a place. -/
def escapedAt (source : Text) (place : ℕ) (ch : Char) : Option Char :=
  if ch = '\\' then source[place + 1]?.filter (· ∈ escapable) else none

/-- The nodes with the plain text before the next of them. -/
def settle (nodes : List Inline) (plain : Text) : List Inline :=
  if plain.isEmpty then nodes else nodes ++ [.text plain]

/-- The loop of `parse_chars`. -/
def parseTurns (matched : ℕ → Char → Option Char → Tried (Inline × ℕ)) (source : Text) :
    (turns : ℕ) → (nodes : List Inline) → (plain : Text) → (place : ℕ) → Run (List Inline)
  | turns, nodes, plain, place =>
    if place < source.length then
      match turns with
      | 0 => throw .turns
      | turns + 1 => do
        let ch ← index source place
        match escapedAt source place ch with
        | some escaped => parseTurns matched source turns nodes (plain ++ [escaped]) (place + 2)
        | none =>
          let before := if place = 0 then none else source[place - 1]?
          match ← (matched place ch before).run with
          | some (node, next) =>
            parseTurns matched source turns (settle nodes plain ++ [node]) [] next
          | none => parseTurns matched source turns nodes (plain ++ [ch]) (place + 1)
    else return settle nodes plain

/-- `parse_chars`, by how much deeper it may still nest. -/
def parseChars (outside : Outside) :
    (left : ℕ) → (inLink : Bool) → (source : Text) → Run (List Inline)
  | 0, inLink, source =>
    parseTurns (matchNode outside none inLink source) source source.length [] [] 0
  | left + 1, inLink, source =>
    parseTurns (matchNode outside (some (parseChars outside left)) inLink source) source
      source.length [] [] 0

def parseInline (outside : Outside) (source : Text) : Run (List Inline) :=
  parseChars outside maxInlineDepth false source

end Inlines

section Blocks

/-- The lines of a fence's body, and what is left after it. -/
def fenceBody (ch : Char) (run : ℕ) : List Text → Run (List Text × List Text)
  | [] => return ([], [])
  | line :: rest => do
    match ← (fenceClose line).run with
    | some (close, length) =>
      if close = ch ∧ run ≤ length then return ([], rest)
      else
        let (body, left) ← fenceBody ch run rest
        return (line :: body, left)
    | none =>
      let (body, left) ← fenceBody ch run rest
      return (line :: body, left)

/-- The items of the lines that go on as the first began, and what is left after them. -/
def takeItems {α : Type} (read : Text → Tried α) : List Text → Run (List α × List Text)
  | [] => return ([], [])
  | line :: rest => do
    match ← (read line).run with
    | some item =>
      let (items, left) ← takeItems read rest
      return (item :: items, left)
    | none => return ([], line :: rest)

/-- The lines of a paragraph, and what is left after it. -/
def takeParagraph : List Text → Run (List Text × List Text)
  | [] => return ([], [])
  | line :: rest => do
    if (trim line).isEmpty then return ([], line :: rest)
    else if ← startsBlock line then return ([], line :: rest)
    else
      let (paragraph, left) ← takeParagraph rest
      return (line :: paragraph, left)

/-- The block the lines start with, and what is left after it. `quoted` makes the block of a quote's
lines. -/
def takeBlock (outside : Outside) (quoted : List Text → Run Block) (line : Text)
    (rest : List Text) :
    Run (Block × List Text) := do
  match ← (fenceOpen line).run with
  | some (ch, run) =>
    -- An unclosed fence runs to the end of the message.
    let (body, left) ← fenceBody ch run rest
    return (.code (join body), left)
  | none =>
    match ← (quoteLine line).run with
    | some _ =>
      let (inner, left) ← takeItems quoteLine (line :: rest)
      return (← quoted inner, left)
    | none =>
      match ← (bullet line).run with
      | some _ =>
        let (texts, left) ← takeItems bullet (line :: rest)
        return (.list false 1 (← texts.mapM (parseInline outside)), left)
      | none =>
        match ← (numbered line).run with
        | some (start, _) =>
          let (items, left) ← takeItems numbered (line :: rest)
          return (.list true start (← items.mapM fun item => parseInline outside item.2), left)
        | none =>
          let (paragraph, left) ← takeParagraph (line :: rest)
          return (.paragraph (← parseInline outside (join paragraph)), left)

/-- The loop of `parse_blocks`. -/
def blockTurns (outside : Outside) (quoted : List Text → Run Block) :
    (turns : ℕ) → List Text → Run (List Block)
  | _, [] => return []
  | 0, _ :: _ => throw .turns
  | turns + 1, line :: rest =>
    if (trim line).isEmpty then blockTurns outside quoted turns rest
    else do
      let (block, left) ← takeBlock outside quoted line rest
      return block :: (← blockTurns outside quoted turns left)

/-- `parse_blocks`, by how much deeper it may still nest. -/
def parseBlocks (outside : Outside) : (left : ℕ) → (lines : List Text) → Run (List Block)
  | 0, lines =>
    blockTurns outside
      (fun inner => Block.paragraph <$> parseInline outside (join inner)) lines.length lines
  | left + 1, lines => blockTurns outside
      (fun inner => Block.quote <$> parseBlocks outside left inner) lines.length lines

end Blocks

section Rendering

/-- The real site, beside words that name another. -/
def renderReal (real : Text) : Text :=
  "<span class=\"real\" title=\"This link goes to ".toList ++ escape real ++ "\"> (".toList ++
    escape real ++ ")</span>".toList

mutual

def renderNode (outside : Outside) : Inline → Run Text
  | .text words => return escape words
  | .code words => return "<code>".toList ++ escape words ++ "</code>".toList
  | .strong children =>
    do return "<strong>".toList ++ (← renderInline outside children) ++ "</strong>".toList
  | .em children => do return "<em>".toList ++ (← renderInline outside children) ++ "</em>".toList
  | .strike children =>
    do return "<del>".toList ++ (← renderInline outside children) ++ "</del>".toList
  | .link href children => do
    let shown := escape href
    let words ← renderInline outside children
    let real ← (disguisedHost outside (flattenInline children) href).run
    return "<a href=\"".toList ++ shown ++ "\" title=\"".toList ++ shown ++
      "\" rel=\"noreferrer\">".toList ++ words ++ "</a>".toList ++ (real.map renderReal).getD []

def renderInline (outside : Outside) : List Inline → Run Text
  | [] => return []
  | node :: nodes => do return (← renderNode outside node) ++ (← renderInline outside nodes)

end

def renderItems (outside : Outside) : List (List Inline) → Run Text
  | [] => return []
  | item :: items => do
    return "<li>".toList ++ (← renderInline outside item) ++ "</li>".toList ++
      (← renderItems outside items)

def openList (ordered : Bool) (start : ℕ) : Text :=
  if ordered then
    if start = 1 then "<ol>".toList
      else "<ol start=\"".toList ++ Nat.toDigits 10 start ++ "\">".toList
  else "<ul>".toList

mutual

def renderBlock (outside : Outside) : Block → Run Text
  | .paragraph children =>
    do return "<p>".toList ++ (← renderInline outside children) ++ "</p>".toList
  | .quote children =>
    do return "<blockquote>".toList ++ (← renderBlocks outside children) ++ "</blockquote>".toList
  | .code words => return "<pre><code>".toList ++ escape words ++ "</code></pre>".toList
  | .list ordered start items => do
    return openList ordered start ++ (← renderItems outside items) ++
      (if ordered then "</ol>".toList else "</ul>".toList)

def renderBlocks (outside : Outside) : List Block → Run Text
  | [] => return []
  | block :: blocks => do return (← renderBlock outside block) ++ (← renderBlocks outside blocks)

end

/-- One message body, as the HTML that goes inside its words' element. -/
def toHtml (outside : Outside) (source : Text) : Run Text := do
  renderBlocks outside (← parseBlocks outside maxBlockDepth (source.splitOn '\n'))

end Rendering

end Linger.ArchiveBody
