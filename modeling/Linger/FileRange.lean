import Linger.ArchiveBody
import Mathlib.Order.Interval.Set.Basic

/-! The one byte range of a file that a request asks for: what the header's text says, what is
answered, and the bytes that go with it. -/
namespace Linger.FileRange
open Names (Text trim isWhitespace)
open ArchiveBody (splitOnce splitOnce_some)

/-- What a `u64` stays below. -/
def bound : ℕ := 2 ^ 64
def maxWord : ℕ := bound - 1

/-- What a request asks of a file. -/
inductive Wanted
  | whole
  | part (start stop : ℕ)
  | unsatisfiable
deriving DecidableEq

def valueOf (digits : Text) : ℕ :=
  digits.foldl (fun value digit => value * 10 + (digit.toNat - 48)) 0

section Code

/-- One end of a range; a number too big for a word is the biggest one. -/
def position (digits : Text) : Option ℕ :=
  if digits.isEmpty || !digits.all Char.isDigit then none
  else some (if valueOf digits < bound then valueOf digits else maxWord)

def parseRange (range : Text) (length : ℕ) : Wanted :=
  -- An empty file has no byte to point at.
  if length = 0 then .whole
  else
    match splitOnce '=' range with
    | none => .whole
    | some (unit, set) =>
      if unit.map Char.toLower ≠ "bytes".toList ∨ ',' ∈ set then .whole
      else
        match splitOnce '-' (trim set) with
        | none => .whole
        | some (first, last) =>
          let lastByte := length - 1
          if first.isEmpty then
            match position last with
            | some 0 => .unsatisfiable
            | some suffix => .part (length - suffix) lastByte
            | none => .whole
          else
            match position first with
            | none => .whole
            | some start =>
              match if last.isEmpty then some none else (position last).map some with
              | none => .whole
              | some stop =>
                -- Backwards is not a range at all.
                if stop.any (· < start) then .whole
                else if lastByte < start then .unsatisfiable
                else .part start (stop.elim lastByte (min · lastByte))

/-- A request's `If-Range`, whether it has one, and its `Range` headers, those that are text. -/
structure Request where
  ifRange : Bool
  ranges : List (Option Text)

def wanted (request : Request) (length : ℕ) : Wanted :=
  if request.ifRange then .whole
  else
    match request.ranges with
    | [some range] => parseRange range length
    | _ => .whole

inductive Header
  | contentType
  | contentDisposition
  | cacheControl
  | contentRange
  | contentLength
  | other (name : Text)
deriving DecidableEq

abbrev Headers := Header → Option Text

def Headers.insert (headers : Headers) (header : Header) (value : Text) : Headers :=
  Function.update headers header (some value)

def Headers.remove (headers : Headers) (header : Header) : Headers :=
  Function.update headers header none

structure Response where
  status : ℕ
  headers : Headers
  body : List UInt8

def digitsOf (number : ℕ) : Text := Nat.toDigits 10 number

/-- `end - start + 1` in a word; nothing where it does not fit. -/
def countOf (start stop : ℕ) : Option ℕ :=
  if start ≤ stop ∧ stop - start + 1 < bound then some (stop - start + 1) else none

def sendFile (file : List UInt8) (headers : Headers) (request : Request) : Option Response :=
  match wanted request file.length with
  | .whole =>
    some ⟨200, headers.insert .contentLength (digitsOf file.length), file.take file.length⟩
  | .part start stop => (countOf start stop).map fun count =>
      let headers := headers.insert .contentRange
        ("bytes ".toList ++ digitsOf start ++ '-' :: digitsOf stop ++ '/' :: digitsOf file.length)
      ⟨206, headers.insert .contentLength (digitsOf count), (file.drop start).take count⟩
  | .unsatisfiable =>
    let headers := ((headers.remove .contentType).remove .contentDisposition).insert .cacheControl
      "no-store".toList
    some ⟨416, headers.insert .contentRange ("bytes */".toList ++ digitsOf file.length), []⟩

end Code

section Grammar

/-- One range of the grammar, by what its digits say. -/
inductive RangeSpec
  | int (first : ℕ) (last : Option ℕ)
  | suffix (count : ℕ)

def IsNumber (digits : Text) : Prop := digits ≠ [] ∧ ∀ digit ∈ digits, digit.isDigit = true

/-- Texts that are one range. -/
inductive Reads : Text → RangeSpec → Prop
  | openEnded (first : Text) (hfirst : IsNumber first) :
      Reads (first ++ ['-']) (.int (valueOf first) none)
  | between (first last : Text) (hfirst : IsNumber first) (hlast : IsNumber last)
      (hle : valueOf first ≤ valueOf last) :
    Reads (first ++ '-' :: last) (.int (valueOf first) (some (valueOf last)))
  | suffix (count : Text) (hcount : IsNumber count) : Reads ('-' :: count) (.suffix (valueOf count))

/-- Whether a byte of the file is one that a range denotes. -/
def RangeSpec.Covers (length : ℕ) : RangeSpec → ℕ → Prop
  | .int first last, byte => byte < length ∧ first ≤ byte ∧ ∀ stop, last = some stop → byte ≤ stop
  | .suffix count, byte => byte < length ∧ length ≤ byte + count

/-- The text is the unit and, blanks around it aside, the range. -/
def Asks (text : Text) (spec : RangeSpec) : Prop :=
  ∃ unit set, text = unit ++ '=' :: set ∧ unit.map Char.toLower = "bytes".toList ∧
    Reads (trim set) spec

/-- The text is the unit and the range, and nothing else. -/
def AsksExactly (text : Text) (spec : RangeSpec) : Prop :=
  ∃ unit set, text = unit ++ '=' :: set ∧ unit.map Char.toLower = "bytes".toList ∧ Reads set spec

/-- A backwards range, both of whose ends are past what a word can tell apart. -/
def BackwardsPast (text : Text) : Prop :=
  ∃ unit set first last, text = unit ++ '=' :: set ∧ unit.map Char.toLower = "bytes".toList ∧
    trim set = first ++ '-' :: last ∧ IsNumber first ∧ IsNumber last ∧ maxWord ≤ valueOf last ∧
    valueOf last < valueOf first

/-- The answer to a text is what the grammar says of it, by `Asked`. -/
structure ReadRight (Asked : Text → RangeSpec → Prop) (text : Text) (length : ℕ) : Prop where
  inside : ∀ start stop, parseRange text length = .part start stop → start ≤ stop ∧ stop < length
  part : ∀ start stop, parseRange text length = .part start stop ↔
    ∃ spec, Asked text spec ∧ start ≤ stop ∧ ∀ byte, spec.Covers length byte ↔
    start ≤ byte ∧ byte ≤ stop
  unsatisfiable : ¬ BackwardsPast text → (parseRange text length = .unsatisfiable ↔
    0 < length ∧ ∃ spec, Asked text spec ∧ ∀ byte, ¬ spec.Covers length byte)
  whole : ¬ BackwardsPast text →
    (parseRange text length = .whole ↔ length = 0 ∨ ¬ ∃ spec, Asked text spec)

/-- Status, headers and body agree on which bytes go out. -/
def Served (file : List UInt8) (headers : Headers) (response : Response) : Wanted → Prop
  | .whole => response.status = 200 ∧ response.body = file ∧
      response.headers .contentRange = headers .contentRange ∧
      response.headers .contentLength = some (digitsOf response.body.length)
  | .part start stop =>
    response.status = 206 ∧ response.body = (file.drop start).take (stop - start + 1) ∧
      response.body.length = stop - start + 1 ∧
      response.headers .contentRange =
        some ("bytes ".toList ++ digitsOf start ++ '-' :: digitsOf stop ++
          '/' :: digitsOf file.length) ∧
      response.headers .contentLength = some (digitsOf response.body.length)
  | .unsatisfiable => response.status = 416 ∧ response.body = [] ∧
      response.headers .contentRange = some ("bytes */".toList ++ digitsOf file.length) ∧
      response.headers .contentLength = headers .contentLength

end Grammar

section Texts
variable {mark : Char} {text before rest digits set : Text} {spec : RangeSpec} {value : ℕ}

theorem mem_dropWhile {p : Char → Bool} (hmem : mark ∈ text) (hp : p mark = false) :
    mark ∈ text.dropWhile p := by
  rw [← List.takeWhile_append_dropWhile (p := p) (l := text)] at hmem
  rcases List.mem_append.mp hmem with htake | hdrop
  · rw [List.mem_takeWhile_imp htake] at hp
    cases hp
  · exact hdrop

/-- Trimming takes only blanks away. -/
theorem mem_trim (hmem : mark ∈ text) (hmark : isWhitespace mark = false) : mark ∈ trim text := by
  rw [trim, List.mem_reverse]
  apply mem_dropWhile _ hmark
  rw [List.mem_reverse]
  exact mem_dropWhile hmem hmark

theorem unit_no_equals (h : text.map Char.toLower = "bytes".toList) : '=' ∉ text := by
  intro hmem
  have hlower := List.mem_map_of_mem (f := Char.toLower) hmem
  rw [h] at hlower
  revert hlower
  decide

theorem IsNumber.no_dash (h : IsNumber digits) : '-' ∉ digits := by
  intro hmem
  have hdigit := h.2 '-' hmem
  revert hdigit
  decide

theorem maxWord_succ : maxWord + 1 = bound := Nat.sub_add_cancel (Nat.pow_pos (by omega))

theorem position_some :
    position digits = some value ↔ IsNumber digits ∧ value = min (valueOf digits) maxWord := by
  have hword : (if valueOf digits < bound then valueOf digits else maxWord) =
      min (valueOf digits) maxWord := by
    have hmax := maxWord_succ
    split
    · next h => exact (min_eq_left (by omega)).symm
    · next h => exact (min_eq_right (by omega)).symm
  rw [position, hword]
  split
  · next h =>
    refine iff_of_false (by simp) ?_
    rintro ⟨⟨hne, hall⟩, -⟩
    rw [Bool.or_eq_true, List.isEmpty_iff] at h
    rcases h with hnil | hnot
    · exact hne hnil
    · simp only [Bool.not_eq_true', List.all_eq_false] at hnot
      obtain ⟨digit, hmem, hdigit⟩ := hnot
      exact hdigit (hall digit hmem)
  · next h =>
    rw [Bool.or_eq_true, not_or, List.isEmpty_iff] at h
    have hnumber : IsNumber digits := by
      refine ⟨h.1, ?_⟩
      simpa using h.2
    rw [Option.some.injEq, and_iff_right hnumber]
    exact eq_comm

theorem Reads.no_comma (h : Reads text spec) : ',' ∉ text := by
  have hnumber : ∀ digits, IsNumber digits → ',' ∉ digits := by
    intro digits hdigits hmem
    have hdigit := hdigits.2 ',' hmem
    revert hdigit
    decide
  cases h with
  | openEnded first hfirst => simp [hnumber first hfirst]
  | between first last hfirst hlast hle => simp [hnumber first hfirst, hnumber last hlast]
  | suffix count hcount => simp [hnumber count hcount]

/-- Ends are in their order. -/
def RangeSpec.Ordered : RangeSpec → Prop
  | .int first last => ∀ stop, last = some stop → first ≤ stop
  | .suffix _ => True

theorem Reads.ordered (h : Reads text spec) : spec.Ordered := by
  cases h with
  | openEnded first hfirst =>
    intro stop hstop
    cases hstop
  | between first last hfirst hlast hle =>
    intro stop hstop
    rw [← Option.some.inj hstop]
    exact hle
  | suffix count hcount => exact trivial

end Texts

section Reading
variable {text unit set : Text} {spec : RangeSpec} {length start stop : ℕ}

/-- What is answered to a range of the grammar. -/
def RangeSpec.answer (length : ℕ) : RangeSpec → Wanted
  | .int first last =>
    if length - 1 < first then .unsatisfiable
      else .part first (last.elim (length - 1) (min · (length - 1)))
  | .suffix count => if count = 0 then .unsatisfiable else .part (length - count) (length - 1)

/-- The ends read as words cut a file no longer than a word can say as the digits' own values do. -/
theorem parseRange_reads (hpos : 0 < length) (hlength : length < bound)
    (hunit : unit.map Char.toLower = "bytes".toList) (h : Reads (trim set) spec) :
    parseRange (unit ++ '=' :: set) length = spec.answer length := by
  have hmax := maxWord_succ
  have hcomma : ',' ∉ set := fun hmem => h.no_comma (mem_trim hmem (by decide))
  rw [parseRange, if_neg (by omega), splitOnce_some.mpr ⟨rfl, unit_no_equals hunit⟩]
  dsimp only
  rw [if_neg (by simp [hunit, hcomma])]
  generalize trim set = range at h
  cases h with
  | openEnded first hfirst =>
    rw [splitOnce_some.mpr ⟨rfl, hfirst.no_dash⟩]
    dsimp only
    rw [if_neg (by simpa using hfirst.1), position_some.mpr ⟨hfirst, rfl⟩]
    simp only [List.isEmpty_nil, if_true, Option.any_none, Bool.false_eq_true, if_false,
      Option.elim_none, RangeSpec.answer]
    by_cases hpast : length - 1 < valueOf first
    · rw [if_pos hpast, if_pos (lt_min hpast (by omega))]
    · have hword : min (valueOf first) maxWord = valueOf first := min_eq_left (by omega)
      rw [hword, if_neg hpast]
  | between first last hfirst hlast hle =>
    rw [splitOnce_some.mpr ⟨rfl, hfirst.no_dash⟩]
    dsimp only
    rw [if_neg (by simpa using hfirst.1), position_some.mpr ⟨hfirst, rfl⟩,
      position_some.mpr ⟨hlast, rfl⟩]
    have hnot : last.isEmpty = false := by simpa using hlast.1
    have hforwards : ¬ min (valueOf last) maxWord < min (valueOf first) maxWord :=
      not_lt.mpr (min_le_min_right maxWord hle)
    simp only [hnot, Bool.false_eq_true, if_false, Option.map_some, Option.any_some,
      decide_eq_true_eq, hforwards, Option.elim_some, RangeSpec.answer]
    by_cases hpast : length - 1 < valueOf first
    · rw [if_pos hpast, if_pos (lt_min hpast (by omega))]
    · have hword : min (valueOf first) maxWord = valueOf first := min_eq_left (by omega)
      have hcut :
          min (min (valueOf last) maxWord) (length - 1) = min (valueOf last) (length - 1) := by
        rw [min_assoc, min_eq_right (by omega : length - 1 ≤ maxWord)]
      rw [hword, if_neg hpast, if_neg hpast, hcut]
  | suffix count hcount =>
    have hsplit : splitOnce '-' ('-' :: count) = some ([], count) :=
      splitOnce_some.mpr ⟨rfl, List.not_mem_nil⟩
    rw [hsplit]
    dsimp only
    rw [if_pos List.isEmpty_nil, position_some.mpr ⟨hcount, rfl⟩, RangeSpec.answer]
    by_cases hzero : valueOf count = 0
    · rw [if_pos hzero, hzero, Nat.zero_min]
      rfl
    · rw [if_neg hzero]
      have hcut : length - min (valueOf count) maxWord = length - valueOf count := by
        rcases Nat.le_total (valueOf count) maxWord with hle | hle
        · rw [min_eq_left hle]
        · rw [min_eq_right hle]
          omega
      split
      · next hword =>
        rw [Option.some.injEq] at hword
        omega
      · next suffix hnonzero hword =>
        rw [← Option.some.inj hword, hcut]
      · next hword => cases hword

/-- The answer to a range holds just the bytes it denotes. -/
theorem answer_covers (hpos : 0 < length) (hspec : spec.Ordered) :
    match spec.answer length with
    | .whole => False
    | .part start stop =>
      start ≤ stop ∧ stop < length ∧ ∀ byte, spec.Covers length byte ↔ start ≤ byte ∧ byte ≤ stop
    | .unsatisfiable => ∀ byte, ¬ spec.Covers length byte := by
  cases spec with
  | int first last =>
    simp only [RangeSpec.answer, RangeSpec.Covers]
    by_cases hpast : length - 1 < first
    · rw [if_pos hpast]
      rintro byte ⟨hbyte, hfirst, -⟩
      omega
    · rw [if_neg hpast]
      cases last with
      | none =>
        simp only [Option.elim_none, reduceCtorEq, false_implies, implies_true, and_true]
        refine ⟨by omega, by omega, fun byte => ?_⟩
        omega
      | some stop =>
        have hle := hspec stop rfl
        simp only [Option.elim_some, Option.some.injEq, forall_eq']
        refine ⟨by omega, by omega, fun byte => ?_⟩
        omega
  | suffix count =>
    simp only [RangeSpec.answer, RangeSpec.Covers]
    by_cases hzero : count = 0
    · rw [if_pos hzero]
      rintro byte ⟨hbyte, hlast⟩
      omega
    · rw [if_neg hzero]
      refine ⟨by omega, by omega, fun byte => ?_⟩
      omega

/-- A text that is no range gets the whole file, unless it is backwards past a word's end. -/
theorem parseRange_whole (h : parseRange text length ≠ .whole) :
    (∃ spec, Asks text spec) ∨ BackwardsPast text := by
  have hmax := maxWord_succ
  by_contra hnot
  rw [not_or] at hnot
  obtain ⟨hasks, hbackwards⟩ := hnot
  -- In the order the code cuts it: the unit, the set, the dash, the two numbers.
  apply h
  rw [parseRange]
  split
  · rfl
  split
  · rfl
  next unit set hsplit =>
  obtain ⟨htext, -⟩ := splitOnce_some.mp hsplit
  split
  · rfl
  next hunit =>
  rw [not_or, not_not] at hunit
  split
  · rfl
  next first last hdash =>
  obtain ⟨hset, -⟩ := splitOnce_some.mp hdash
  dsimp only
  split
  -- A suffix: had it a number, the text would ask for one.
  · next hempty =>
    rw [List.isEmpty_iff] at hempty
    have hnone : position last = none := by
      cases hlast : position last with
      | none => rfl
      | some value =>
        have hreads := Reads.suffix last (position_some.mp hlast).1
        rw [hempty, List.nil_append] at hset
        rw [← hset] at hreads
        exact absurd ⟨_, unit, set, htext, hunit.1, hreads⟩ hasks
    rw [hnone]
  -- From a number on, or between two, which are then backwards.
  · next hsome =>
    cases hfirst : position first with
    | none => rfl
    | some start =>
      obtain ⟨hnumber, hstart⟩ := position_some.mp hfirst
      by_cases hempty : last = []
      · have hreads := Reads.openEnded first hnumber
        rw [hempty] at hset
        rw [← hset] at hreads
        exact absurd ⟨_, unit, set, htext, hunit.1, hreads⟩ hasks
      · dsimp only
        rw [if_neg (by simpa using hempty)]
        cases hlast : position last with
        | none => rfl
        | some stop =>
          obtain ⟨hother, hstop⟩ := position_some.mp hlast
          dsimp only [Option.map_some]
          have hlt : valueOf last < valueOf first := by
            by_contra hle
            have hreads := Reads.between first last hnumber hother (not_lt.mp hle)
            rw [← hset] at hreads
            exact hasks ⟨_, unit, set, htext, hunit.1, hreads⟩
          have hword : valueOf last < maxWord := by
            by_contra hge
            exact hbackwards ⟨unit, set, first, last, htext, hunit.1, hset, hnumber, hother,
              not_lt.mp hge, hlt⟩
          have hback : stop < start := by
            rw [hstart, hstop]
            exact (min_le_left _ _).trans_lt (lt_min hlt hword)
          rw [if_pos (by simpa using hback)]

theorem backwards_not_asked (h : BackwardsPast text) : ¬ ∃ spec, Asks text spec := by
  obtain ⟨unit, set, first, last, htext, hunit, hset, hfirst, hlast, -, hlt⟩ := h
  rintro ⟨spec, unit', set', htext', hunit', hreads⟩
  -- The text has one reading.
  have hsame := splitOnce_some.mpr ⟨htext, unit_no_equals hunit⟩
  rw [splitOnce_some.mpr ⟨htext', unit_no_equals hunit'⟩, Option.some.injEq, Prod.mk.injEq] at hsame
  rw [hsame.2, hset] at hreads
  have hsplit : ∀ before rest, IsNumber before → first ++ '-' :: last = before ++ '-' :: rest →
      before = first ∧ rest = last := by
    intro before rest hbefore heq
    have hfound := splitOnce_some.mpr ⟨heq, hbefore.no_dash⟩
    rw [splitOnce_some.mpr ⟨rfl, hfirst.no_dash⟩, Option.some.injEq, Prod.mk.injEq] at hfound
    exact ⟨hfound.1.symm, hfound.2.symm⟩
  generalize hrange : first ++ '-' :: last = range at hreads
  cases hreads with
  | openEnded before hbefore =>
    exact hlast.1 (hsplit before [] hbefore hrange).2.symm
  | between before rest hbefore hrest hle =>
    obtain ⟨hone, hother⟩ := hsplit before rest hbefore hrange
    rw [hone, hother] at hle
    omega
  | suffix count hcount =>
    cases hchars : first with
    | nil => exact hfirst.1 hchars
    | cons digit digits =>
      rw [hchars, List.cons_append, List.cons.injEq] at hrange
      apply hfirst.no_dash
      rw [hchars, hrange.1]
      exact List.mem_cons_self

theorem parseRange_backwards (hpos : 0 < length) (hlength : length < bound)
    (h : BackwardsPast text) :
    parseRange text length = .unsatisfiable := by
  have hmax := maxWord_succ
  have hnot := backwards_not_asked h
  obtain ⟨unit, set, first, last, htext, hunit, hset, hfirst, hlast, hword, hlt⟩ := h
  have hcomma : ',' ∉ set := by
    intro hmem
    have hin := mem_trim hmem (by decide)
    rw [hset, List.mem_append, List.mem_cons] at hin
    rcases hin with hin | hin | hin
    · exact absurd (hfirst.2 ',' hin) (by decide)
    · exact absurd hin (by decide)
    · exact absurd (hlast.2 ',' hin) (by decide)
  rw [parseRange, if_neg (by omega), splitOnce_some.mpr ⟨htext, unit_no_equals hunit⟩]
  dsimp only
  rw [if_neg (by simp [hunit, hcomma]), splitOnce_some.mpr ⟨hset, hfirst.no_dash⟩]
  dsimp only
  have hsome : last.isEmpty = false := by simpa using hlast.1
  rw [if_neg (by simpa using hfirst.1), position_some.mpr ⟨hfirst, rfl⟩,
    position_some.mpr ⟨hlast, rfl⟩, min_eq_right hword, min_eq_right (hword.trans hlt.le)]
  simp only [hsome, Bool.false_eq_true, if_false, Option.map_some, Option.any_some, lt_irrefl,
    decide_false]
  rw [if_pos (by omega)]

theorem parseRange_asked (hpos : 0 < length) (hlength : length < bound) (h : Asks text spec) :
    parseRange text length = spec.answer length ∧ spec.Ordered := by
  obtain ⟨unit, set, htext, hunit, hreads⟩ := h
  rw [htext]
  exact ⟨parseRange_reads hpos hlength hunit hreads, hreads.ordered⟩

/-- What an answer to a range of the grammar holds. -/
theorem asked_covers (hpos : 0 < length) (hlength : length < bound) (h : Asks text spec) :
    match parseRange text length with
    | .whole => False
    | .part start stop =>
      start ≤ stop ∧ stop < length ∧ ∀ byte, spec.Covers length byte ↔ start ≤ byte ∧ byte ≤ stop
    | .unsatisfiable => ∀ byte, ¬ spec.Covers length byte := by
  obtain ⟨hparse, hordered⟩ := parseRange_asked hpos hlength h
  rw [hparse]
  exact answer_covers hpos hordered

theorem part_asked (hpos : 0 < length) (hlength : length < bound)
    (h : parseRange text length = .part start stop) :
    ∃ spec, Asks text spec ∧ start ≤ stop ∧ stop < length ∧
      ∀ byte, spec.Covers length byte ↔ start ≤ byte ∧ byte ≤ stop := by
  have hwhole : parseRange text length ≠ .whole := by
    rw [h]
    simp
  rcases parseRange_whole hwhole with ⟨spec, hasks⟩ | hback
  · have hcovers := asked_covers hpos hlength hasks
    rw [h] at hcovers
    exact ⟨spec, hasks, hcovers⟩
  · rw [parseRange_backwards hpos hlength hback] at h
    cases h

theorem asked_part (hpos : 0 < length) (hlength : length < bound) (h : Asks text spec)
    (hle : start ≤ stop)
    (hbytes : ∀ byte, spec.Covers length byte ↔ start ≤ byte ∧ byte ≤ stop) :
    parseRange text length = .part start stop := by
  have hcovers := asked_covers hpos hlength h
  cases hfound : parseRange text length with
  | whole =>
    rw [hfound] at hcovers
    exact hcovers.elim
  | unsatisfiable =>
    rw [hfound] at hcovers
    exact absurd ((hbytes start).mpr ⟨le_rfl, hle⟩) (hcovers start)
  | part first last =>
    rw [hfound] at hcovers
    obtain ⟨hordered, -, hcovered⟩ := hcovers
    -- Both are the same stretch of bytes.
    have hfirst := (hcovered start).mp ((hbytes start).mpr ⟨le_rfl, hle⟩)
    have hlast := (hcovered stop).mp ((hbytes stop).mpr ⟨hle, le_rfl⟩)
    have hfirst' := (hbytes first).mp ((hcovered first).mpr ⟨le_rfl, hordered⟩)
    have hlast' := (hbytes last).mp ((hcovered last).mpr ⟨hordered, le_rfl⟩)
    have hstart : first = start := by omega
    have hstop : last = stop := by omega
    rw [hstart, hstop]

theorem unsatisfiable_iff (hpos : 0 < length) (hlength : length < bound)
    (hback : ¬ BackwardsPast text) :
    parseRange text length = .unsatisfiable ↔
      ∃ spec, Asks text spec ∧ ∀ byte, ¬ spec.Covers length byte := by
  constructor
  · intro h
    have hwhole : parseRange text length ≠ .whole := by
      rw [h]
      simp
    rcases parseRange_whole hwhole with ⟨spec, hasks⟩ | hback'
    · have hcovers := asked_covers hpos hlength hasks
      rw [h] at hcovers
      exact ⟨spec, hasks, hcovers⟩
    · exact absurd hback' hback
  · rintro ⟨spec, hasks, hnone⟩
    have hcovers := asked_covers hpos hlength hasks
    cases hfound : parseRange text length with
    | whole =>
      rw [hfound] at hcovers
      exact hcovers.elim
    | unsatisfiable => rfl
    | part first last =>
      rw [hfound] at hcovers
      exact absurd ((hcovers.2.2 first).mpr ⟨le_rfl, hcovers.1⟩) (hnone first)

theorem whole_iff (hpos : 0 < length) (hlength : length < bound) (hback : ¬ BackwardsPast text) :
    parseRange text length = .whole ↔ ¬ ∃ spec, Asks text spec := by
  constructor
  · rintro h ⟨spec, hasks⟩
    have hcovers := asked_covers hpos hlength hasks
    rw [h] at hcovers
    exact hcovers
  · intro hnone
    by_contra hwhole
    rcases parseRange_whole hwhole with hasks | hback'
    · exact hnone hasks
    · exact hback hback'

/-- Nothing of an empty file is denoted, and all of it is sent. -/
theorem empty_right (text : Text) : ReadRight Asks text 0 := by
  have hwhole : parseRange text 0 = .whole := by rw [parseRange, if_pos rfl]
  constructor
  · intro start stop h
    rw [hwhole] at h
    cases h
  · intro start stop
    rw [hwhole]
    refine iff_of_false (by simp) ?_
    rintro ⟨spec, -, hle, hcovers⟩
    have hbyte := (hcovers start).mpr ⟨le_rfl, hle⟩
    cases spec with
    | int first last => exact absurd hbyte.1 (Nat.not_lt_zero _)
    | suffix count => exact absurd hbyte.1 (Nat.not_lt_zero _)
  · intro _
    rw [hwhole]
    exact iff_of_false (by simp) (by omega)
  · intro _
    exact iff_of_true hwhole (Or.inl rfl)

/-- Every text is answered as the grammar says, those aside that are backwards past what a word
tells apart. -/
theorem parseRange_right (text : Text) (hlength : length < bound) : ReadRight Asks text length := by
  rcases Nat.eq_zero_or_pos length with hzero | hpos
  · rw [hzero]
    exact empty_right text
  · constructor
    · intro start stop h
      obtain ⟨spec, -, hle, hlt, -⟩ := part_asked hpos hlength h
      exact ⟨hle, hlt⟩
    · intro start stop
      constructor
      · intro h
        obtain ⟨spec, hasks, hle, -, hcovers⟩ := part_asked hpos hlength h
        exact ⟨spec, hasks, hle, hcovers⟩
      · rintro ⟨spec, hasks, hle, hcovers⟩
        exact asked_part hpos hlength hasks hle hcovers
    · intro hback
      rw [unsatisfiable_iff hpos hlength hback]
      exact (and_iff_right hpos).symm
    · intro hback
      rw [whole_iff hpos hlength hback]
      exact (or_iff_right hpos.ne').symm

end Reading

section Sending
variable {file : List UInt8} {headers : Headers} {request : Request} {start stop : ℕ}

theorem wanted_inside (hfile : file.length < bound)
    (h : wanted request file.length = .part start stop) :
    start ≤ stop ∧ stop < file.length := by
  rw [wanted] at h
  split at h
  · cases h
  split at h
  · next range hranges => exact (parseRange_right range hfile).inside start stop h
  · cases h

/-- Nothing overflows, and status, headers and body agree. -/
theorem sendFile_served (hfile : file.length < bound) :
    ∃ response, sendFile file headers request = some response ∧
      Served file headers response (wanted request file.length) := by
  rw [sendFile]
  cases hwanted : wanted request file.length with
  | whole =>
    refine ⟨_, rfl, rfl, List.take_length, ?_, ?_⟩
    · dsimp only [Headers.insert]
      rw [Function.update_of_ne (by decide)]
    · dsimp only [Headers.insert]
      rw [Function.update_self, List.take_length]
  | part start stop =>
    obtain ⟨hle, hlt⟩ := wanted_inside hfile hwanted
    have hcount : countOf start stop = some (stop - start + 1) := if_pos ⟨hle, by omega⟩
    have hbody : ((file.drop start).take (stop - start + 1)).length = stop - start + 1 := by
      rw [List.length_take, List.length_drop]
      omega
    dsimp only
    rw [hcount]
    refine ⟨_, rfl, rfl, rfl, hbody, ?_, ?_⟩
    · dsimp only [Headers.insert]
      rw [Function.update_of_ne (by decide), Function.update_self]
    · dsimp only [Headers.insert]
      rw [Function.update_self, hbody]
  | unsatisfiable =>
    refine ⟨_, rfl, rfl, rfl, ?_, ?_⟩
    · dsimp only [Headers.insert]
      rw [Function.update_self]
    · dsimp only [Headers.insert, Headers.remove]
      rw [Function.update_of_ne (by decide), Function.update_of_ne (by decide),
        Function.update_of_ne (by decide), Function.update_of_ne (by decide)]

/-- Every text is read as the grammar says, and what goes out is what was read. -/
theorem range_served (file : List UInt8) (hfile : file.length < bound) :
    (∀ text, ReadRight Asks text file.length) ∧
    ∀ request headers, ∃ response, sendFile file headers request = some response ∧
      Served file headers response (wanted request file.length) :=
  ⟨fun text => parseRange_right text hfile, fun _ _ => sendFile_served hfile⟩

def threeBytes : List UInt8 := [1, 2, 3]

theorem range_served_three : (∀ text, ReadRight Asks text threeBytes.length) ∧
    ∀ request headers, ∃ response, sendFile threeBytes headers request = some response ∧
      Served threeBytes headers response (wanted request threeBytes.length) :=
  range_served threeBytes (by decide)

/-- Blanks before the range are let pass, which the grammar has none of. -/
theorem blank_read : ¬ ReadRight AsksExactly "bytes= 0-5".toList 1000 := by
  intro h
  obtain ⟨spec, ⟨unit, set, htext, hunit, hreads⟩, -⟩ := (h.part 0 5).mp (by decide)
  have hsplit := splitOnce_some.mpr ⟨htext, unit_no_equals hunit⟩
  have hset : set = " 0-5".toList := by
    have hfound : splitOnce '=' "bytes= 0-5".toList = some ("bytes".toList, " 0-5".toList) := by
      decide
    rw [hfound, Option.some.injEq, Prod.mk.injEq] at hsplit
    exact hsplit.2.symm
  -- A range begins with a digit or a dash.
  have hblank : ∀ digits rest : Text, IsNumber digits → digits ++ '-' :: rest ≠ " 0-5".toList := by
    intro digits rest hdigits heq
    cases digits with
    | nil => exact hdigits.1 rfl
    | cons digit digits =>
      have hfirst : digit = ' ' := (List.cons.inj heq).1
      have hdigit := hdigits.2 digit List.mem_cons_self
      rw [hfirst] at hdigit
      revert hdigit
      decide
  generalize hrange : " 0-5".toList = range at hset hblank
  rw [hset] at hreads
  cases hreads with
  | openEnded first hfirst => exact hblank first [] hfirst rfl
  | between first last hfirst hlast hle => exact hblank first last hfirst rfl
  | suffix count hcount => exact absurd hrange (by simp)

example :
    parseRange "bytes=99999999999999999999-99999999999999999998".toList 1000 = .unsatisfiable := by
  decide

end Sending

end Linger.FileRange
