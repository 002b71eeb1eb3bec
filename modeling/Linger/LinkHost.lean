import Linger.AppMarkdown
import Linger.Patterns

/-! Where a link really goes, when its words say somewhere else, as the app has it: its patterns
over the words, and what words read as an address or a domain. -/
namespace Linger.LinkHost
open Patterns Patterns.Pattern
open Names (Text)
open AppMarkdown (isSpace trim trimAddress)
open ArchiveBody (Url)

local instance textLawful : LawfulBEq (List Char) := inferInstance

/-- What is not this module's: the URL parser, the letters of any alphabet (`\p{L}`, ignoring case),
and how a string is lowercased. -/
structure Platform where
  parse : Text → Option Url
  isLetter : Char → Bool
  toLowerCase : Text → Text

section Words

def isSchemeChar (c : Char) : Bool := c.isAlphanum || c ∈ ['+', '.', '-']

/-- `WITH_SCHEME`: an address typed with its scheme. Ignoring case brings in no letter beyond
ASCII. -/
def withScheme : Pattern Char :=
  seq (one Char.isAlpha)
    (seq (many (one isSchemeChar)) (seq (literal "://".toList) (many (one fun _ => true))))

def isNameChar (c : Char) : Bool := !(isSpace c || c ∈ ['/', '?', '#', '@', ':', '\\'])

/-- `BARE_DOMAIN`: words that read as a bare domain, maybe with a port and a path. -/
def bareDomain : Pattern Char :=
  seq ((one isNameChar).atLeast 1)
    (seq (one (· = '.')) (seq ((one fun c => isNameChar c && c ≠ '.').atLeast 1)
    (seq (maybe (seq (one (· = ':')) ((one Char.isDigit).between 1 5)))
      (maybe (seq (one (· ∈ ['/', '?', '#'])) (many (one fun c => !isSpace c)))))))

/-- `[a-z0-9-]`, ignoring case as Unicode has it: a long `s` and the Kelvin sign are letters of
it. -/
def isLabelChar (c : Char) : Bool := c.isAlphanum || c ∈ ['-', '\u017f', '\u212a']

/-- `TOP_LABEL`: two or more letters in any alphabet, or an `xn--` name. -/
def topLabel (isLetter : Char → Bool) : Pattern Char :=
  either ((one isLetter).atLeast 2)
    (seq (one (· ∈ ['x', 'X'])) (seq (one (· ∈ ['n', 'N']))
      (seq (literal "--".toList) ((one isLabelChar).atLeast 1))))

def fewDigits : Pattern Char := (one Char.isDigit).between 1 3

/-- `DOTTED_QUAD`: four numbers with dots. -/
def dottedQuad : Pattern Char := seq fewDigits (times (seq (one (· = '.')) fewDigits) 3)

/-- `/:\d*$/`. -/
def port : Pattern Char := seq (one (· = ':')) (many (one Char.isDigit))

def lastStop : Pattern Char := one (· = '.')

def indexOf (pattern : Text) : Text → Option ℕ
  | [] => if pattern = [] then some 0 else none
  | c :: rest =>
    if pattern.isPrefixOf (c :: rest) then some 0 else (indexOf pattern rest).map (· + 1)

def lastIndexOf (x : Char) : Text → Option ℕ
  | [] => none
  | c :: rest =>
    match lastIndexOf x rest with
    | some place => some (place + 1)
    | none => if c = x then some 0 else none

/-- An address as typed: without the sentence around it, and with a dot for another alphabet's full
stop. -/
def addressText (words : Text) : Text :=
  (trimAddress (trim words)).map fun c => if c ∈ ['\u3002', '\uff0e', '\uff61'] then '.' else c

def web : List Text := ["https".toList, "http".toList]

/-- An address as the parser reads it, and what of it stands before a path. -/
def urlAndAuthority (platform : Platform) (text : Text) : Option (Url × Text) := do
  if withScheme.accepts text then
    let url ← platform.parse text
    if url.scheme ∉ web then none
    else
      -- Where nothing is found, `indexOf` answers one less than nothing.
      let after := text.drop ((indexOf "//".toList text).elim 1 (· + 2))
      return (url, after.takeWhile (· ∉ ['/', '?', '#', '\\']))
  else if bareDomain.accepts text then
    let url ← platform.parse ("https://".toList ++ text)
    return (url, text.takeWhile (· ∉ ['/', '?', '#']))
  else none

/-- A host as it was typed. -/
def typedHost (platform : Platform) (authority : Text) : Text :=
  platform.toLowerCase (port.dropEnd ((lastIndexOf '@' authority).elim authority fun place =>
    authority.drop (place + 1)))

def labels (typed : Text) : List Text := (lastStop.dropEnd typed).splitOn '.'

def top (typed : Text) : Text := (labels typed).getLast?.getD []

def hostname (url : Url) : Text := url.host.getD []

/-- What a link's words name: the parser's reading, the letters as typed, and whether a `user@` came
first. -/
structure WordsHost where
  host : Text
  typed : Text
  userinfo : Bool
deriving DecidableEq

def wordsHost (platform : Platform) (words : Text) : Option WordsHost := do
  let text := addressText words
  if text = [] ∨ text.any isSpace then none
  else
    let (url, authority) ← urlAndAuthority platform text
    let typed := typedHost platform authority
    -- `3.14` and `v1.2` are numbers, not places.
    if (labels typed).length < 2 ∨
      !(dottedQuad.accepts typed || (topLabel platform.isLetter).accepts (top typed)) then none
    else if hostname url = [] then none
    else return ⟨hostname url, typed, (lastIndexOf '@' authority).isSome⟩

end Words

section Hosts

def webHost (platform : Platform) (href : Text) : Option Text := do
  let url ← platform.parse href
  if url.scheme ∉ web then none
  else if hostname url = [] then none
  else return hostname url

/-- A host without a leading `www.` or a trailing dot. -/
def bare (host : Text) : Text :=
  let host := lastStop.dropEnd host
  if "www.".toList.isPrefixOf host then host.drop 4 else host

def sameSite (a b : Text) : Bool :=
  let left := bare a
  let right := bare b
  left == right || ('.' :: right).isSuffixOf left || ('.' :: left).isSuffixOf right

def isAscii (text : Text) : Bool := text.all fun c => ' ' ≤ c && c ≤ '~'

/-- The host a link really goes to, when its words name a different one. -/
def disguisedHost (platform : Platform) (words href : Text) : Option Text := do
  let real ← webHost platform href
  let said ← wordsHost platform words
  if said.userinfo then return real
  else if !isAscii said.typed then return real
  else if sameSite said.host real then none
  else return real

end Hosts

section Reading

variable {text scheme after name last port' tail typed : Text} {isLetter : Char → Bool} {c : Char}

/-- `https`, say. -/
def Scheme (scheme : Text) : Prop :=
  ∃ first rest, scheme = first :: rest ∧ first.isAlpha = true ∧ ∀ c ∈ rest, isSchemeChar c = true

/-- What a path, a query or a fragment starts with. -/
def marks : List Char := ['/', '?', '#']

/-- Words that read as a bare domain, in their parts. -/
structure Domain (name last port' tail : Text) : Prop where
  name : 1 ≤ name.length ∧ ∀ c ∈ name, isNameChar c = true
  last : 1 ≤ last.length ∧ ∀ c ∈ last, isNameChar c = true ∧ c ≠ '.'
  port : port' = [] ∨ ∃ digits, port' = ':' :: digits ∧ (1 ≤ digits.length ∧ digits.length ≤ 5) ∧
    ∀ c ∈ digits, c.isDigit = true
  tail : tail = [] ∨ ∃ mark rest, tail = mark :: rest ∧ mark ∈ marks ∧ ∀ c ∈ rest, isSpace c = false

def Few (digits : Text) : Prop :=
  (1 ≤ digits.length ∧ digits.length ≤ 3) ∧ ∀ c ∈ digits, c.isDigit = true

/-- An IPv4 address written out. -/
def Quad (typed : Text) : Prop :=
  ∃ first second third fourth, Few first ∧ Few second ∧ Few third ∧ Few fourth ∧
    typed = first ++ '.' :: (second ++ '.' :: (third ++ '.' :: fourth))

/-- A last label that looks like a real one. -/
def RealLabel (isLetter : Char → Bool) (label : Text) : Prop :=
  (2 ≤ label.length ∧ ∀ c ∈ label, isLetter c = true) ∨
    ∃ x n rest, label = x :: n :: '-' :: '-' :: rest ∧ x ∈ ['x', 'X'] ∧ n ∈ ['n', 'N'] ∧
      1 ≤ rest.length ∧ ∀ c ∈ rest, isLabelChar c = true

/-- A place, and no number: an IPv4 address, or two labels or more with a real-looking last one. -/
def Place (isLetter : Char → Bool) (typed : Text) : Prop :=
  Quad typed ∨ ∃ before last, lastStop.dropEnd typed = before ++ '.' :: last ∧ '.' ∉ last ∧
    RealLabel isLetter last

theorem withScheme_iff : withScheme.accepts text = true ↔
    ∃ scheme after, Scheme scheme ∧ text = scheme ++ "://".toList ++ after := by
  rw [accepts_iff, withScheme, mem_one_seq]
  constructor
  · rintro ⟨first, more, rfl, hfirst, hmore⟩
    obtain ⟨rest, ends, hrest, hends, rfl⟩ := mem_seq.mp hmore
    obtain ⟨slashes, after, hslashes, -, rfl⟩ := mem_seq.mp hends
    rw [mem_literal.mp hslashes]
    exact ⟨first :: rest, after, ⟨first, rest, rfl, hfirst, mem_many_one.mp hrest⟩, by simp⟩
  · rintro ⟨scheme, after, ⟨first, rest, rfl, hfirst, hrest⟩, rfl⟩
    have hends :=
      mem_seq.mpr ⟨"://".toList, after, mem_literal.mpr rfl, mem_many_one.mpr fun _ _ => rfl, rfl⟩
    have hmore := mem_seq.mpr ⟨rest, "://".toList ++ after, mem_many_one.mpr hrest, hends, rfl⟩
    exact ⟨first, rest ++ ("://".toList ++ after), by simp, hfirst, hmore⟩

theorem bareDomain_iff : bareDomain.accepts text = true ↔
    ∃ name last port' tail, Domain name last port' tail ∧
      text = name ++ '.' :: last ++ port' ++ tail := by
  have hlast (x : Text) : x ∈ ((one fun c => isNameChar c && c ≠ '.').atLeast 1).language ↔
      1 ≤ x.length ∧ ∀ c ∈ x, isNameChar c = true ∧ c ≠ '.' := by
    rw [mem_atLeast_one]
    simp
  have hport (x : Text) :
      x ∈ (maybe (seq (one (· = ':')) ((one Char.isDigit).between 1 5))).language ↔
      x = [] ∨ ∃ digits, x = ':' :: digits ∧ (1 ≤ digits.length ∧ digits.length ≤ 5) ∧
        ∀ c ∈ digits, c.isDigit = true := by
    rw [mem_maybe, mem_one_seq, or_comm]
    apply or_congr_right
    constructor
    · rintro ⟨colon, digits, rfl, hcolon, hdigits⟩
      rw [of_decide_eq_true hcolon]
      exact ⟨digits, rfl, (mem_between_one (by omega)).mp hdigits⟩
    · rintro ⟨digits, rfl, hdigits⟩
      exact ⟨':', digits, rfl, rfl, (mem_between_one (by omega)).mpr hdigits⟩
  have htail (x : Text) :
      x ∈ (maybe (seq (one (· ∈ ['/', '?', '#'])) (many (one fun c => !isSpace c)))).language ↔
      x = [] ∨ ∃ mark rest, x = mark :: rest ∧ mark ∈ marks ∧ ∀ c ∈ rest, isSpace c = false := by
    rw [mem_maybe, mem_one_seq, or_comm]
    apply or_congr_right
    constructor
    · rintro ⟨mark, rest, rfl, hmark, hrest⟩
      have hplain := mem_many_one.mp hrest
      exact ⟨mark, rest, rfl, of_decide_eq_true hmark, by simpa using hplain⟩
    · rintro ⟨mark, rest, rfl, hmark, hrest⟩
      exact ⟨mark, rest, rfl, decide_eq_true hmark, mem_many_one.mpr (by simpa using hrest)⟩
  rw [accepts_iff, bareDomain]
  constructor
  · intro h
    obtain ⟨name, hostEnd, hname, hhostEnd, rfl⟩ := mem_seq.mp h
    obtain ⟨stop, afterStop, rfl, hstop, hafterStop⟩ := mem_one_seq.mp hhostEnd
    obtain ⟨last, ends, hmem, hends, rfl⟩ := mem_seq.mp hafterStop
    obtain ⟨port', tail, hcolon, hmark, rfl⟩ := mem_seq.mp hends
    have hdomain : Domain name last port' tail :=
      ⟨mem_atLeast_one.mp hname, (hlast last).mp hmem, (hport port').mp hcolon,
        (htail tail).mp hmark⟩
    rw [of_decide_eq_true hstop]
    exact ⟨name, last, port', tail, hdomain, by simp⟩
  · rintro ⟨name, last, port', tail, h, rfl⟩
    have hends := mem_seq.mpr ⟨port', tail, (hport port').mpr h.port, (htail tail).mpr h.tail, rfl⟩
    have hafter := mem_seq.mpr ⟨last, port' ++ tail, (hlast last).mpr h.last, hends, rfl⟩
    apply mem_seq.mpr ⟨name, '.' :: (last ++ (port' ++ tail)), mem_atLeast_one.mpr h.name,
      _, by simp⟩
    exact mem_one_seq.mpr ⟨'.', _, rfl, rfl, hafter⟩

theorem topLabel_iff : (topLabel isLetter).accepts text = true ↔ RealLabel isLetter text := by
  rw [accepts_iff, topLabel, mem_either, mem_atLeast_one, RealLabel]
  apply or_congr_right
  constructor
  · intro h
    obtain ⟨x, afterX, rfl, hx, hafterX⟩ := mem_one_seq.mp h
    obtain ⟨n, afterN, rfl, hn, hafterN⟩ := mem_one_seq.mp hafterX
    obtain ⟨dashes, rest, hdashes, hrest, rfl⟩ := mem_seq.mp hafterN
    rw [mem_literal.mp hdashes]
    exact ⟨x, n, rest, rfl, of_decide_eq_true hx, of_decide_eq_true hn, mem_atLeast_one.mp hrest⟩
  · rintro ⟨x, n, rest, rfl, hx, hn, hrest⟩
    have hdashes := mem_seq.mpr
      ⟨"--".toList, rest, mem_literal.mpr rfl, mem_atLeast_one.mpr hrest, rfl⟩
    apply mem_one_seq.mpr ⟨x, _, rfl, decide_eq_true hx, _⟩
    exact mem_one_seq.mpr ⟨n, _, rfl, decide_eq_true hn, hdashes⟩

theorem dottedQuad_iff : dottedQuad.accepts text = true ↔ Quad text := by
  have hfew (x : Text) : x ∈ fewDigits.language ↔ Few x := mem_between_one (by omega)
  have hnext (p : Pattern Char) (x : Text) : x ∈ (seq (seq (one (· = '.')) fewDigits) p).language ↔
      ∃ digits rest, Few digits ∧ rest ∈ p.language ∧ x = '.' :: (digits ++ rest) := by
    rw [mem_seq]
    constructor
    · rintro ⟨group, rest, hgroup, hrest, rfl⟩
      obtain ⟨stop, digits, rfl, hstop, hdigits⟩ := mem_one_seq.mp hgroup
      rw [of_decide_eq_true hstop]
      exact ⟨digits, rest, (hfew digits).mp hdigits, hrest, by simp⟩
    · rintro ⟨digits, rest, hdigits, hrest, rfl⟩
      refine ⟨'.' :: digits, rest, ?_, hrest, by simp⟩
      exact mem_one_seq.mpr ⟨'.', digits, rfl, rfl, (hfew digits).mpr hdigits⟩
  rw [accepts_iff, dottedQuad, mem_seq]
  constructor
  · rintro ⟨first, others, hfirst, hothers, rfl⟩
    obtain ⟨second, twoLeft, hsecond, htwoLeft, rfl⟩ := (hnext _ _).mp hothers
    obtain ⟨third, oneLeft, hthird, honeLeft, rfl⟩ := (hnext _ _).mp htwoLeft
    obtain ⟨fourth, none, hfourth, hnone, rfl⟩ := (hnext _ _).mp honeLeft
    rw [(Language.mem_one none).mp hnone, List.append_nil]
    exact ⟨first, second, third, fourth, (hfew first).mp hfirst, hsecond, hthird, hfourth, rfl⟩
  · rintro ⟨first, second, third, fourth, hfirst, hsecond, hthird, hfourth, rfl⟩
    have hlast := (hnext empty _).mpr ⟨fourth, [], hfourth, (Language.mem_one []).mpr rfl, rfl⟩
    have hmiddle := (hnext _ _).mpr ⟨third, _, hthird, hlast, rfl⟩
    have hmore := (hnext _ _).mpr ⟨second, _, hsecond, hmiddle, rfl⟩
    exact ⟨first, _, (hfew first).mpr hfirst, hmore, by simp⟩

/-- Words as they read, the parser's reading of them, and what of them stands before a path. -/
inductive Address (platform : Platform) : (text : Text) → Url → (authority : Text) → Prop
  | full {scheme authority tail : Text} {url : Url} (hscheme : Scheme scheme)
      (hauthority : ∀ c ∈ authority, c ∉ ['/', '?', '#', '\\']) (htail : ∀ c ∈ tail.head?,
        c ∈ ['/', '?', '#', '\\'])
      (hurl : platform.parse (scheme ++ "://".toList ++ (authority ++ tail)) = some url)
        (hweb : url.scheme ∈ web) :
      Address platform (scheme ++ "://".toList ++ (authority ++ tail)) url authority
  | bare {name last port' tail : Text} {url : Url} (hdomain : Domain name last port' tail)
      (hurl : platform.parse ("https://".toList ++ (name ++ '.' :: last ++ port' ++ tail)) =
        some url) :
      Address platform (name ++ '.' :: last ++ port' ++ tail) url (name ++ '.' :: last ++ port')

theorem isSchemeChar_plain (h : isSchemeChar c = true) : c ∉ [':', '/', '?', '#'] := by
  intro hmem
  simp only [List.mem_cons, List.not_mem_nil, or_false] at hmem
  rcases hmem with rfl | rfl | rfl | rfl
  all_goals exact absurd h (by decide)

theorem Scheme.plain (h : Scheme scheme) : ∀ c ∈ scheme, c ∉ [':', '/', '?', '#'] := by
  obtain ⟨first, rest, rfl, hfirst, hrest⟩ := h
  apply List.forall_mem_cons.mpr ⟨_, fun c hc => isSchemeChar_plain (hrest c hc)⟩
  apply isSchemeChar_plain
  simp [isSchemeChar, Char.isAlphanum, hfirst]

theorem isNameChar_plain (h : isNameChar c = true) : c ∉ ['/', '?', '#', '@', ':', '\\'] := by
  simp only [isNameChar, Bool.not_eq_true', Bool.or_eq_false_iff, decide_eq_false_iff_not] at h
  exact h.2

theorem isDigit_plain (h : c.isDigit = true) : c ∉ ['/', '?', '#', '@', ':', '\\'] := by
  intro hmem
  simp only [List.mem_cons, List.not_mem_nil, or_false] at hmem
  rcases hmem with rfl | rfl | rfl | rfl | rfl | rfl
  all_goals exact absurd h (by decide)

/-- The host of such words holds nothing that ends it, and no colon but its port's. -/
theorem Domain.plain (h : Domain name last port' tail) :
    ∀ c ∈ name ++ '.' :: last, c ∉ ['/', '?', '#', '@', ':', '\\'] := by
  intro c hc
  rcases List.mem_append.mp hc with hname | hmem
  · exact isNameChar_plain (h.name.2 c hname)
  · rcases List.mem_cons.mp hmem with rfl | hlast
    · decide
    · exact isNameChar_plain (h.last.2 c hlast).1

theorem Domain.authority_plain (h : Domain name last port' tail) :
    ∀ c ∈ name ++ '.' :: last ++ port', c ∉ ['/', '?', '#'] ∧ c ≠ '@' := by
  have hcolon : ∀ c, c ∉ ['/', '?', '#', '@', ':', '\\'] ∨ c = ':' →
      c ∉ ['/', '?', '#'] ∧ c ≠ '@' := by
    rintro c (hc | rfl)
    · simp only [List.mem_cons, not_or] at hc
      simp [hc]
    · decide
  intro c hc
  apply hcolon
  rcases List.mem_append.mp hc with hhost | hport
  · exact Or.inl (h.plain c hhost)
  · rcases h.port with rfl | ⟨digits, rfl, -, hdigits⟩
    · cases hport
    · rcases List.mem_cons.mp hport with rfl | hdigit
      · exact Or.inr rfl
      · exact Or.inl (isDigit_plain (hdigits c hdigit))

theorem takeWhile_before {ends before after : Text} (hbefore : ∀ c ∈ before, c ∉ ends)
    (hafter : ∀ c ∈ after.head?, c ∈ ends) : (before ++ after).takeWhile (· ∉ ends) = before := by
  rw [List.takeWhile_append_of_pos fun c hc => decide_eq_true (hbefore c hc)]
  cases after with
  | nil => exact List.append_nil before
  | cons c after =>
    have hc := hafter c rfl
    rw [List.takeWhile_cons_of_neg (by simpa using hc), List.append_nil]

theorem head_dropWhile_mem (ends : Text) : ∀ c ∈ (text.dropWhile (· ∉ ends)).head?, c ∈ ends := by
  intro c hc
  have hnot := List.head?_dropWhile_not (· ∉ ends) text
  rw [Option.mem_def.mp hc] at hnot
  simpa using hnot

theorem indexOf_append {x : Char} {pattern before after : Text} (h : x ∉ before) :
    indexOf (x :: pattern) (before ++ (x :: pattern) ++ after) = some before.length := by
  induction before with
  | nil =>
    have hprefix : (x :: pattern).isPrefixOf (x :: (pattern ++ after)) = true := by
      apply List.isPrefixOf_iff_prefix.mpr
      exact List.prefix_append (x :: pattern) after
    rw [List.nil_append, List.cons_append, indexOf, if_pos hprefix]
    rfl
  | cons c before ih =>
    rw [List.mem_cons, not_or] at h
    have hnot : (x :: pattern).isPrefixOf (c :: (before ++ (x :: pattern) ++ after)) ≠ true := by
      rw [Ne, List.isPrefixOf_iff_prefix, List.cons_prefix_cons]
      exact fun hboth => h.1 hboth.1
    rw [List.cons_append, List.cons_append, indexOf, if_neg hnot, ih h.2]
    rfl

/-- Words that read as a bare domain start with no scheme. -/
theorem Domain.schemeless (h : Domain name last port' tail) :
    withScheme.accepts (name ++ '.' :: last ++ port' ++ tail) ≠ true := by
  rw [Ne, withScheme_iff]
  rintro ⟨scheme, after, hscheme, htext⟩
  -- Both ways of reading the text end their first part at the first of these characters.
  have hhost : (name ++ '.' :: last ++ (port' ++ tail)).takeWhile (· ∉ [':', '/', '?', '#']) =
      name ++ '.' :: last := by
    apply takeWhile_before
    · intro c hc hmem
      apply h.plain c hc
      simp only [List.mem_cons, List.not_mem_nil, or_false] at hmem ⊢
      tauto
    · intro c hc
      rcases h.port with rfl | ⟨digits, rfl, -, -⟩
      · rcases h.tail with rfl | ⟨mark, rest, rfl, hmark, -⟩
        · cases hc
        · rw [← Option.some.inj hc]
          exact List.mem_cons_of_mem ':' hmark
      · rw [← Option.some.inj hc]
        exact List.mem_cons_self
  have hfront : (scheme ++ ("://".toList ++ after)).takeWhile (· ∉ [':', '/', '?', '#']) = scheme :=
    takeWhile_before hscheme.plain fun c hc => by
      rw [← Option.some.inj hc]
      exact List.mem_cons_self
  rw [List.append_assoc, List.append_assoc scheme] at htext
  rw [htext, hfront] at hhost
  rw [hhost, List.append_cancel_left_eq] at htext
  -- What follows the host starts as a port does, and goes on as none can.
  rcases h.port with rfl | ⟨digits, rfl, hlength, hdigits⟩
  · rcases h.tail with rfl | ⟨mark, rest, rfl, hmark, -⟩
    · cases htext
    · rw [List.nil_append] at htext
      rw [(List.cons.inj htext).1] at hmark
      exact absurd hmark (by decide)
  · cases digits with
    | nil => cases hlength.1
    | cons digit digits =>
      have hdigit := hdigits digit List.mem_cons_self
      have hslash : digit = '/' := (List.cons.inj (List.cons.inj htext).2).1
      rw [hslash] at hdigit
      exact absurd hdigit (by decide)

variable {platform : Platform} {url : Url} {authority words href real : Text} {said : WordsHost}

/-- What stands after the first two slashes. -/
theorem Scheme.after_slashes (h : Scheme scheme) : (scheme ++ "://".toList ++ after).drop
    ((indexOf "//".toList (scheme ++ "://".toList ++ after)).elim 1 (· + 2)) = after := by
  have hnot : '/' ∉ scheme ++ [':'] := by
    intro hmem
    rcases List.mem_append.mp hmem with hin | hin
    · exact h.plain '/' hin (by decide)
    · exact absurd hin (by decide)
  have hindex :
      indexOf ['/', '/'] (scheme ++ [':'] ++ ['/', '/'] ++ after) = some (scheme ++ [':']).length :=
    indexOf_append hnot
  have htext : scheme ++ [':'] ++ ['/', '/'] ++ after = scheme ++ "://".toList ++ after := by
    rw [List.append_assoc scheme]
    rfl
  have hlength : (scheme ++ [':']).length + 2 = (scheme ++ "://".toList).length := by
    rw [List.length_append, List.length_append]
    rfl
  rw [htext] at hindex
  calc (scheme ++ "://".toList ++
      after).drop ((indexOf "//".toList (scheme ++ "://".toList ++ after)).elim 1 (· + 2))
    _ = (scheme ++ "://".toList ++ after).drop ((scheme ++ [':']).length + 2) := by
      rw [show "//".toList = ['/', '/'] from rfl, hindex, Option.elim_some]
    _ = after := by rw [hlength, List.drop_left]

theorem Domain.tail_head (h : Domain name last port' tail) :
    ∀ c ∈ tail.head?, c ∈ ['/', '?', '#'] := by
  intro c hc
  rcases h.tail with rfl | ⟨mark, rest, rfl, hmark, -⟩
  · cases hc
  · rw [← Option.some.inj hc]
    exact hmark

/-- The two patterns and the cuts after them give an address, and all of them. -/
theorem urlAndAuthority_iff : urlAndAuthority platform text = some (url, authority) ↔
    Address platform text url authority := by
  constructor
  · intro h
    rw [urlAndAuthority] at h
    split at h
    · next hscheme =>
      -- The pattern gives the scheme, and the parser has the last word on whether it is the web's.
      obtain ⟨scheme, after, hplain, rfl⟩ := withScheme_iff.mp hscheme
      obtain ⟨parsed, hurl, h⟩ := Option.bind_eq_some_iff.mp h
      split at h
      · cases h
      · next hweb =>
        rw [hplain.after_slashes] at h
        obtain ⟨rfl, rfl⟩ := Prod.mk.inj (Option.some.inj h)
        have hcut : after.takeWhile (· ∉ ['/', '?', '#', '\\']) ++
            after.dropWhile (· ∉ ['/', '?', '#', '\\']) = after :=
          List.takeWhile_append_dropWhile
        have hbefore :
            ∀ c ∈ after.takeWhile (· ∉ ['/', '?', '#', '\\']), c ∉ ['/', '?', '#', '\\'] := by
          intro c hc
          have hnot := List.mem_takeWhile_imp hc
          exact of_decide_eq_true hnot
        rw [← hcut] at hurl
        have haddress := Address.full hplain hbefore (head_dropWhile_mem ['/', '?', '#', '\\']) hurl
          (not_not.mp hweb)
        rwa [hcut] at haddress
    · split at h
      · next hbare =>
        obtain ⟨name, last, port', tail, hdomain, rfl⟩ := bareDomain_iff.mp hbare
        obtain ⟨parsed, hurl, h⟩ := Option.bind_eq_some_iff.mp h
        obtain ⟨rfl, rfl⟩ := Prod.mk.inj (Option.some.inj h)
        rw [takeWhile_before (fun c hc => (hdomain.authority_plain c hc).1) hdomain.tail_head]
        exact Address.bare hdomain hurl
      · cases h
  · intro h
    rw [urlAndAuthority]
    cases h with
    | @full scheme _ tail _ hscheme hauthority htail hurl hweb =>
      rw [if_pos (withScheme_iff.mpr ⟨scheme, _, hscheme, rfl⟩), hurl, Option.bind_eq_bind,
        Option.bind_some, if_neg (not_not.mpr hweb), hscheme.after_slashes]
      dsimp only
      rw [takeWhile_before hauthority htail]
      rfl
    | @bare name last port' tail _ hdomain hurl =>
      rw [if_neg hdomain.schemeless,
        if_pos (bareDomain_iff.mpr ⟨name, last, port', tail, hdomain, rfl⟩), hurl,
        Option.bind_eq_bind, Option.bind_some,
        takeWhile_before (fun c hc => (hdomain.authority_plain c hc).1) hdomain.tail_head]
      rfl

theorem last_of_mem {x : Char} (h : x ∈ text) :
    ∃ before last, text = before ++ x :: last ∧ x ∉ last := by
  obtain ⟨last, before, hreverse, hlast⟩ := List.eq_append_cons_of_mem (List.mem_reverse.mpr h)
  refine ⟨before.reverse, last.reverse, ?_, fun hin => hlast (List.mem_reverse.mp hin)⟩
  calc text
    _ = text.reverse.reverse := (List.reverse_reverse text).symm
    _ = before.reverse ++ x :: last.reverse := by simp [hreverse]

theorem top_of_split (hsplit : lastStop.dropEnd typed = name ++ '.' :: last) (hlast : '.' ∉ last) :
    top typed = last ∧ 2 ≤ (labels typed).length := by
  have hlabels : labels typed = name.splitOn '.' ++ [last] := by
    rw [labels, hsplit, List.splitOn_append_cons_self, List.splitOn_eq_singleton hlast]
  have hpositive := List.length_pos_iff.mpr (List.splitOn_ne_nil '.' name)
  rw [top, hlabels, List.getLast?_concat, List.length_append, List.length_singleton]
  exact ⟨rfl, by omega⟩

/-- What comes of looking at the last label is whether the name is a place. -/
theorem place_iff : ¬((labels typed).length < 2 ∨
      !(dottedQuad.accepts typed || (topLabel isLetter).accepts (top typed))) ↔
    Place isLetter typed := by
  -- Four numbers end in a digit, so nothing is taken off their end.
  have hquad : Quad typed → '.' ∈ lastStop.dropEnd typed := by
    rintro ⟨first, second, third, fourth, -, -, -, hfourth, rfl⟩
    rw [lastStop, dropEnd_one_none]
    · simp
    · intro c hc
      have hne : fourth ≠ [] := List.length_pos_iff.mp hfourth.1.1
      have hlast : c ∈ fourth.getLast? := by
        simpa [List.getLast?_append, List.getLast?_cons, List.getLast?_eq_some_getLast hne] using hc
      apply decide_eq_false
      rintro rfl
      exact absurd (hfourth.2 '.' (List.mem_of_getLast? hlast)) (by decide)
  have hdecide : (!(dottedQuad.accepts typed || (topLabel isLetter).accepts (top typed))) = true ↔
      ¬(Quad typed ∨ RealLabel isLetter (top typed)) := by
    rw [Bool.not_eq_true', Bool.eq_false_iff, Ne, Bool.or_eq_true, dottedQuad_iff, topLabel_iff]
  rw [hdecide, not_or, not_not]
  by_cases hdot : '.' ∈ lastStop.dropEnd typed
  · obtain ⟨before, last, hsplit, hlast⟩ := last_of_mem hdot
    obtain ⟨htop, htwo⟩ := top_of_split hsplit hlast
    rw [htop, and_iff_right (Nat.not_lt.mpr htwo), Place]
    apply or_congr_right
    constructor
    · exact fun hreal => ⟨before, last, hsplit, hlast, hreal⟩
    · rintro ⟨before', last', hsplit', hlast', hreal⟩
      rw [(top_of_split hsplit' hlast').1] at htop
      exact htop ▸ hreal
  · have hone : (labels typed).length < 2 := by
      rw [labels, List.splitOn_eq_singleton hdot, List.length_singleton]
      omega
    constructor
    · exact fun h => absurd hone h.1
    · rintro (h | ⟨before, last, hsplit, -⟩)
      · exact absurd (hquad h) hdot
      · rw [hsplit] at hdot
        exact absurd (by simp) hdot

/-- Words that read as an address or a domain of some place, and what they name. -/
structure Reads (platform : Platform) (words : Text) (url : Url) (authority : Text) : Prop where
  solid : ∀ c ∈ addressText words, isSpace c = false
  address : Address platform (addressText words) url authority
  place : Place platform.isLetter (typedHost platform authority)
  host : hostname url ≠ []

theorem lastIndexOf_isSome {x : Char} : (lastIndexOf x text).isSome = true ↔ x ∈ text := by
  induction text with
  | nil => simp [lastIndexOf]
  | cons c text ih =>
    rw [lastIndexOf, List.mem_cons, ← ih]
    cases lastIndexOf x text with
    | some place => simp
    | none =>
      by_cases hc : c = x
      · simp [hc]
      · simp [hc, Ne.symm hc]

theorem Address.ne_nil (h : Address platform text url authority) : text ≠ [] := by
  cases h with
  | full hscheme => simp
  | bare hdomain => simp

theorem wordsHost_iff :
    wordsHost platform words = some said ↔ ∃ url authority, Reads platform words url authority ∧
    said = ⟨hostname url, typedHost platform authority, (lastIndexOf '@' authority).isSome⟩ := by
  rw [wordsHost]
  constructor
  · intro h
    dsimp only at h
    split at h
    · cases h
    · next hsolid =>
      obtain ⟨⟨url, authority⟩, haddress, h⟩ := Option.bind_eq_some_iff.mp h
      dsimp only at h
      split at h
      · cases h
      · next hplace =>
        split at h
        · cases h
        · next hhost =>
          rw [not_or, List.any_eq_true] at hsolid
          have hplain : ∀ c ∈ addressText words, isSpace c = false := by
            intro c hc
            apply Bool.eq_false_iff.mpr
            exact fun hspace => hsolid.2 ⟨c, hc, hspace⟩
          exact ⟨url, authority,
            ⟨hplain, urlAndAuthority_iff.mp haddress, place_iff.mp hplace, hhost⟩,
            (Option.some.inj h).symm⟩
  · rintro ⟨url, authority, hreads, rfl⟩
    have hsolid : ¬(addressText words = [] ∨ (addressText words).any isSpace = true) := by
      rw [not_or, List.any_eq_true]
      refine ⟨hreads.address.ne_nil, ?_⟩
      rintro ⟨c, hc, hspace⟩
      rw [hreads.solid c hc] at hspace
      cases hspace
    dsimp only
    rw [if_neg hsolid, urlAndAuthority_iff.mpr hreads.address, Option.bind_eq_bind,
      Option.bind_some]
    dsimp only
    rw [if_neg (place_iff.mpr hreads.place), if_neg hreads.host]
    rfl

end Reading

section Answers

variable {platform : Platform} {words href a b : Text}

/-- Two hosts of one site: the same once a trailing dot and then a leading `www.` are dropped, or
one inside the other at a dot. -/
def SameSite (a b : Text) : Prop :=
  bare a = bare b ∨ (∃ inside, bare a = inside ++ '.' :: bare b) ∨
    ∃ inside, bare b = inside ++ '.' :: bare a

/-- A link to a web page, as the parser reads it. -/
def WebPage (platform : Platform) (href : Text) (link : Url) : Prop :=
  platform.parse href = some link ∧ link.scheme ∈ web ∧ hostname link ≠ []

theorem sameSite_iff : sameSite a b = true ↔ SameSite a b := by
  have hinside (x y : Text) : ('.' :: y).isSuffixOf x = true ↔
      ∃ inside, x = inside ++ '.' :: y := by
    rw [List.isSuffixOf_iff_suffix]
    exact exists_congr fun _ => eq_comm
  simp only [sameSite, Bool.or_eq_true, hinside, beq_iff_eq, or_assoc]
  exact Iff.rfl

theorem webHost_iff {real : Text} : webHost platform href = some real ↔
    ∃ link, WebPage platform href link ∧ real = hostname link := by
  rw [webHost]
  constructor
  · intro h
    obtain ⟨link, hurl, h⟩ := Option.bind_eq_some_iff.mp h
    split at h
    · cases h
    · next hweb =>
      split at h
      · cases h
      · next hhost => exact ⟨link, ⟨hurl, not_not.mp hweb, hhost⟩, (Option.some.inj h).symm⟩
  · rintro ⟨link, ⟨hurl, hweb, hhost⟩, rfl⟩
    rw [hurl, Option.bind_eq_bind, Option.bind_some, if_neg (not_not.mpr hweb), if_neg hhost]
    rfl

/-- Where the app says nothing: the link is to no web page, its words read as no address of a place,
or they name the same site, with no `user@` and in letters of printable ASCII. -/
theorem disguisedHost_none : disguisedHost platform words href = none ↔
    (∀ link, ¬WebPage platform href link) ∨ (∀ url authority, ¬Reads platform words url authority) ∨
      ∃ link url authority, WebPage platform href link ∧ Reads platform words url authority ∧
        '@' ∉ authority ∧
        (∀ c ∈ typedHost platform authority, ' ' ≤ c ∧ c ≤ '~') ∧
        SameSite (hostname url) (hostname link) := by
  rw [disguisedHost]
  cases hreal : webHost platform href with
  | none =>
    rw [Option.bind_eq_bind, Option.bind_none]
    refine iff_of_true rfl (Or.inl fun link hlink => ?_)
    rw [webHost_iff.mpr ⟨link, hlink, rfl⟩] at hreal
    cases hreal
  | some real =>
    obtain ⟨link, hlink, rfl⟩ := webHost_iff.mp hreal
    have hone (other : Url) (hother : WebPage platform href other) : other = link :=
      Option.some.inj (hother.1.symm.trans hlink.1)
    rw [Option.bind_eq_bind, Option.bind_some]
    cases hsaid : wordsHost platform words with
    | none =>
      rw [Option.bind_eq_bind, Option.bind_none]
      refine iff_of_true rfl (Or.inr (Or.inl fun url authority hreads => ?_))
      rw [wordsHost_iff.mpr ⟨url, authority, hreads, rfl⟩] at hsaid
      cases hsaid
    | some said =>
      obtain ⟨url, authority, hreads, rfl⟩ := wordsHost_iff.mp hsaid
      have hascii : isAscii (typedHost platform authority) = true ↔
          ∀ c ∈ typedHost platform authority, ' ' ≤ c ∧ c ≤ '~' := by
        simp [isAscii]
      -- The words have one reading: the cuts that give it are functions of the text.
      have hsaidOne {url' : Url} {authority' : Text}
          (hreads' : Reads platform words url' authority') :
          url' = url ∧ authority' = authority := by
        have haddress := urlAndAuthority_iff.mpr hreads'.address
        rw [urlAndAuthority_iff.mpr hreads.address, Option.some.injEq, Prod.mk.injEq] at haddress
        exact ⟨haddress.1.symm, haddress.2.symm⟩
      rw [Option.bind_eq_bind, Option.bind_some]
      dsimp only
      constructor
      · intro h
        split at h
        · cases h
        · next huser =>
          split at h
          · cases h
          · next hplain =>
            split at h
            · next hsame =>
              rw [Bool.not_eq_true, Bool.not_eq_false'] at hplain
              have hnone : '@' ∉ authority := fun hat => huser (lastIndexOf_isSome.mpr hat)
              exact Or.inr (Or.inr ⟨link, url, authority, hlink, hreads, hnone, hascii.mp hplain,
                sameSite_iff.mp hsame⟩)
            · cases h
      · rintro (hnone | hnone | ⟨link', url', authority', hlink', hreads', huser, hplain, hsame⟩)
        · exact absurd hlink (hnone link)
        · exact absurd hreads (hnone url authority)
        · obtain ⟨rfl, rfl⟩ := hsaidOne hreads'
          rw [hone link' hlink'] at hsame
          rw [if_neg fun hat => huser (lastIndexOf_isSome.mp hat),
            if_neg (by simp [hascii.mpr hplain]), if_pos (sameSite_iff.mpr hsame)]

end Answers

end Linger.LinkHost
