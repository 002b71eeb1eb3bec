import Mathlib.Data.List.Basic
import Mathlib.Data.List.GetD
import Mathlib.Data.List.Sort
import Mathlib.Order.Bounds.Basic
import Mathlib.Logic.Function.Basic

/-! Where an opener's partner is, worked out once for a source and then looked up, against the scan
from each opener that it replaced. A source is UTF-16 code units; which of them are spaces and which
are of words is given. -/
namespace Linger.SpanPartners

abbrev CodeUnit := UInt16
abbrev Source := List CodeUnit

def backslash : CodeUnit := 0x5C
def underscore : CodeUnit := 0x5F

/-- The two kinds of bracket. -/
inductive Kind
  | square
  | round
deriving DecidableEq

def Kind.opening : Kind → CodeUnit
  | .square => 0x5B
  | .round => 0x28

def Kind.closing : Kind → CodeUnit
  | .square => 0x5D
  | .round => 0x29

section Scan

/-- The scan from an opener: `depth` openers after it are yet to be closed, and a backslash takes
the character after it along. -/
def plainScan (source : Source) (kind : Kind) (depth place : ℕ) : Option ℕ :=
  if hplace : place < source.length then
    if source[place] = backslash then plainScan source kind depth (place + 2)
    else if source[place] = kind.opening then plainScan source kind (depth + 1) (place + 1)
    else if source[place] = kind.closing then
      match depth with
      | 0 => some place
      | depth + 1 => plainScan source kind depth (place + 1)
    else plainScan source kind depth (place + 1)
  else none
termination_by source.length - place

/-- What the scan of one opener finds. -/
def partnerOf (source : Source) (kind : Kind) (place : ℕ) : Option ℕ :=
  if source[place]? = some kind.opening then plainScan source kind 0 (place + 1) else none

end Scan

section Kept

/-- What an opener's own scan does, over nested pairs in one jump each; `partner` says where those
end. -/
def scanPartner (source : Source) (kind : Kind) (partner : ℕ → Option ℕ) :
    (turns : ℕ) → ℕ → Option ℕ
  | 0, _ => none
  | turns + 1, place =>
    match source[place]? with
    | none => none
    | some ch =>
      if ch = backslash then scanPartner source kind partner turns (place + 2)
      else if ch = kind.opening then
        match partner place with
        | none => none
        | some nested => scanPartner source kind partner turns (nested + 1)
      else if ch = kind.closing then some place
      else scanPartner source kind partner turns (place + 1)

/-- The array of partners, filled from the end of the source. -/
def fillPartners (source : Source) (kind : Kind) : (start : ℕ) → (ℕ → Option ℕ) → ℕ → Option ℕ
  | 0, partner => partner
  | start + 1, partner =>
    fillPartners source kind start <|
      if source[start]? = some kind.opening then
        Function.update partner start (scanPartner source kind partner source.length (start + 1))
      else partner

def occursAt (source opener : Source) (place : ℕ) : Bool := opener.isPrefixOf (source.drop place)

/-- The first place from `start` on at which the opener occurs. -/
def indexOf (source opener : Source) (start : ℕ) : Option ℕ :=
  (List.range' start (source.length - start)).find? (occursAt source opener)

variable (isSpace isWordChar : CodeUnit → Bool)

/-- Not after whitespace, and for underscores not before a letter. -/
def canClose (source opener : Source) (place : ℕ) : Bool :=
  place ≠ 0 && (source[place - 1]?.any fun before => !isSpace before) &&
    (opener.head? ≠ some underscore || !(source[place + opener.length]?.any isWordChar))

/-- Every place at which the opener can close a span, in order, from `start` on. -/
def closesFrom (source opener : Source) : (turns : ℕ) → (start : ℕ) → List ℕ
  | 0, _ => []
  | turns + 1, start =>
    match indexOf source opener start with
    | none => []
    | some place =>
      if canClose isSpace isWordChar source opener place then
        place :: closesFrom source opener turns (place + 1)
      else closesFrom source opener turns (place + 1)

/-- The loop that looks a place up by halves. -/
def lowerBound (found : List ℕ) (start : ℕ) : (turns low high : ℕ) → ℕ
  | 0, low, _ => low
  | turns + 1, low, high =>
    if low < high then
      let middle := (low + high) / 2
      if found.getD middle 0 < start then lowerBound found start turns (middle + 1) high
      else lowerBound found start turns low middle
    else low

/-- What was worked out so far, of one source. -/
structure Partners where
  source : Source
  brackets : Kind → Option (ℕ → Option ℕ)
  closes : Source → Option (List ℕ)

def Partners.new (source : Source) : Partners := ⟨source, fun _ => none, fun _ => none⟩

def Partners.bracket (partners : Partners) (place : ℕ) (kind : Kind) : Option ℕ × Partners :=
  match partners.brackets kind with
  | some partner => (partner place, partners)
  | none =>
    let partner := fillPartners partners.source kind partners.source.length fun _ => none
    (partner place,
      { partners with brackets := Function.update partners.brackets kind (some partner) })

def Partners.emphasisClose (partners : Partners) (opener : Source) (start : ℕ) :
    Option ℕ × Partners :=
  let found := match partners.closes opener with
    | some found => found
    | none => closesFrom isSpace isWordChar partners.source opener partners.source.length 1
  (found[lowerBound found start found.length 0 found.length]?,
    { partners with closes := Function.update partners.closes opener (some found) })

/-- One question asked of the partners. -/
inductive Ask
  | bracket (place : ℕ) (kind : Kind)
  | emphasisClose (opener : Source) (start : ℕ)

def Partners.answer (partners : Partners) : Ask → Option ℕ × Partners
  | .bracket place kind => partners.bracket place kind
  | .emphasisClose opener start => partners.emphasisClose isSpace isWordChar opener start

/-- The answers to questions asked one after another. -/
def Partners.answers (partners : Partners) : List Ask → List (Option ℕ)
  | [] => []
  | ask :: asks =>
    let (found, partners) := partners.answer isSpace isWordChar ask
    found :: partners.answers asks

/-- Where an emphasis can close. -/
def ClosesAt (source opener : Source) (place : ℕ) : Prop :=
  occursAt source opener place = true ∧
    (∃ before, 1 ≤ place ∧ source[place - 1]? = some before ∧ isSpace before = false) ∧
    (opener.head? = some underscore → ∀ next, source[place + opener.length]? = some next →
      isWordChar next = false)

/-- What an answer has to be. -/
def Answers (source : Source) : Ask → Option ℕ → Prop
  | .bracket place kind, found =>
    source[place]? = some kind.opening → found = plainScan source kind 0 (place + 1)
  | .emphasisClose opener start, found =>
    (∀ place, found = some place ↔
      IsLeast {place | start ≤ place ∧ ClosesAt isSpace isWordChar source opener place} place)

end Kept

section Brackets
variable {source : Source} {kind : Kind} {depth place stop : ℕ}

theorem plainScan_step {ch : CodeUnit} (h : source[place]? = some ch) :
    plainScan source kind depth place =
    if ch = backslash then plainScan source kind depth (place + 2)
    else if ch = kind.opening then plainScan source kind (depth + 1) (place + 1)
    else if ch = kind.closing then
      match depth with
      | 0 => some place
      | depth + 1 => plainScan source kind depth (place + 1)
    else plainScan source kind depth (place + 1) := by
  obtain ⟨hplace, hch⟩ := List.getElem?_eq_some_iff.mp h
  rw [plainScan.eq_def, dif_pos hplace, hch]

theorem plainScan_none (h : source[place]? = none) : plainScan source kind depth place = none := by
  rw [plainScan.eq_def, dif_neg (not_lt.mpr (List.getElem?_eq_none_iff.mp h))]

theorem plainScan_le (h : plainScan source kind depth place = some stop) : place ≤ stop := by
  fun_induction plainScan source kind depth place with
  | case1 depth place hplace hescape ih => exact Nat.le_trans (by omega) (ih h)
  | case2 depth place hplace hescape hopen ih => exact Nat.le_trans (by omega) (ih h)
  | case3 place hplace hescape hopen hclose => exact (Option.some.inj h).le
  | case4 place hplace hescape hopen hclose depth ih => exact Nat.le_trans (by omega) (ih h)
  | case5 depth place hplace hescape hopen hclose ih => exact Nat.le_trans (by omega) (ih h)
  | case6 depth place hplace => cases h

/-- Scanning for one more closer is scanning for the inner ones first, and on from there. -/
theorem plainScan_split (inner : ℕ) : plainScan source kind (inner + 1 + depth) place =
    (plainScan source kind inner place).bind fun stop =>
    plainScan source kind depth (stop + 1) := by
  fun_induction plainScan source kind inner place with
  | case1 inner place hplace hescape ih =>
    rw [plainScan_step (List.getElem?_eq_getElem hplace), if_pos hescape, ih]
  | case2 inner place hplace hescape hopen ih =>
    rw [plainScan_step (List.getElem?_eq_getElem hplace), if_neg hescape, if_pos hopen, ← ih]
    congr 1
    omega
  | case3 place hplace hescape hopen hclose =>
    rw [plainScan_step (List.getElem?_eq_getElem hplace), if_neg hescape, if_neg hopen,
      if_pos hclose, Option.bind_some, Nat.add_comm]
  | case4 place hplace hescape hopen hclose inner ih =>
    rw [plainScan_step (List.getElem?_eq_getElem hplace), if_neg hescape, if_neg hopen,
      if_pos hclose, ← ih]
    rw [show inner + 1 + 1 + depth = inner + 1 + depth + 1 by omega]
  | case5 inner place hplace hescape hopen hclose ih =>
    rw [plainScan_step (List.getElem?_eq_getElem hplace), if_neg hescape, if_neg hopen,
      if_neg hclose, ih]
  | case6 inner place hplace =>
    rw [plainScan_none (List.getElem?_eq_none_iff.mpr (not_lt.mp hplace)), Option.bind_none]

/-- The scan that jumps finds what the plain one does, if the jumps end where the nested scans
do. -/
theorem scanPartner_eq {partner : ℕ → Option ℕ} {turns : ℕ} (hpartner : ∀ nested, place ≤ nested →
    partner nested = partnerOf source kind nested) (hturns : source.length - place ≤ turns) :
    scanPartner source kind partner turns place = plainScan source kind 0 place := by
  induction turns generalizing place with
  | zero =>
    rw [scanPartner, plainScan_none (List.getElem?_eq_none_iff.mpr (by omega))]
  | succ turns ih =>
    rw [scanPartner]
    cases hch : source[place]? with
    | none => rw [plainScan_none hch]
    | some ch =>
      dsimp only
      rw [plainScan_step hch]
      have hlater : ∀ next, place < next →
          scanPartner source kind partner turns next = plainScan source kind 0 next := by
        intro next hnext
        apply ih
        · intro nested hnested
          exact hpartner nested (by omega)
        · omega
      by_cases hescape : ch = backslash
      · rw [if_pos hescape, if_pos hescape]
        exact hlater _ (by omega)
      · rw [if_neg hescape, if_neg hescape]
        by_cases hopen : ch = kind.opening
        · -- The nested pair is stepped over; one that never closes leaves nothing to find.
          have hsplit := @plainScan_split source kind 0 (place + 1) 0
          rw [if_pos hopen, if_pos hopen, hpartner place le_rfl, partnerOf,
            if_pos (by rw [hch, hopen]), Nat.zero_add, hsplit]
          cases hnested : plainScan source kind 0 (place + 1) with
          | none => rfl
          | some nested =>
            have hle := plainScan_le hnested
            exact hlater _ (by omega)
        · rw [if_neg hopen, if_neg hopen]
          by_cases hclose : ch = kind.closing
          · rw [if_pos hclose, if_pos hclose]
          · rw [if_neg hclose, if_neg hclose]
            exact hlater _ (by omega)

/-- Filled from the end, the array holds what each opener's scan finds. -/
theorem fillPartners_eq {start : ℕ} {partner : ℕ → Option ℕ} (h : ∀ place, partner place =
    if start ≤ place then partnerOf source kind place else none) (place : ℕ) :
    fillPartners source kind start partner place = partnerOf source kind place := by
  induction start generalizing partner with
  | zero =>
    rw [fillPartners, h, if_pos (Nat.zero_le _)]
  | succ start ih =>
    rw [fillPartners]
    apply ih
    intro other
    by_cases hopen : source[start]? = some kind.opening
    · rw [if_pos hopen]
      by_cases hsame : other = start
      · have hscan := @scanPartner_eq source kind (start + 1) partner source.length
          (fun nested hnested => by rw [h, if_pos hnested]) (Nat.sub_le _ _)
        rw [hsame, Function.update_self, hscan, if_pos le_rfl, partnerOf, if_pos hopen]
      · rw [Function.update_of_ne hsame, h]
        by_cases hafter : start + 1 ≤ other
        · rw [if_pos hafter, if_pos (by omega)]
        · rw [if_neg hafter, if_neg (by omega)]
    · rw [if_neg hopen, h]
      by_cases hsame : other = start
      · rw [hsame, if_neg (by omega), if_pos le_rfl, partnerOf, if_neg hopen]
      · by_cases hafter : start + 1 ≤ other
        · rw [if_pos hafter, if_pos (by omega)]
        · rw [if_neg hafter, if_neg (by omega)]

theorem fillPartners_all (source : Source) (kind : Kind) :
    fillPartners source kind source.length (fun _ => none) = partnerOf source kind := by
  funext place
  apply fillPartners_eq
  intro other
  by_cases hafter : source.length ≤ other
  · rw [if_pos hafter, partnerOf, List.getElem?_eq_none hafter]
    rfl
  · rw [if_neg hafter]

end Brackets

section Closes
variable {isSpace isWordChar : CodeUnit → Bool} {source opener : Source} {place start turns : ℕ}

theorem occursAt_lt (hopener : opener ≠ []) (h : occursAt source opener place = true) :
    place < source.length := by
  by_contra hend
  rw [occursAt, List.drop_of_length_le (not_lt.mp hend)] at h
  exact hopener (List.prefix_nil.mp (List.isPrefixOf_iff_prefix.mp h))

theorem indexOf_some (h : indexOf source opener start = some place) : start ≤ place ∧
    occursAt source opener place = true ∧ ∀ before, start ≤ before → before < place →
      occursAt source opener before = false := by
  obtain ⟨hoccurs, hmem, hnone⟩ := List.find?_range'_eq_some.mp h
  refine ⟨(List.mem_range'_1.mp hmem).1, hoccurs, fun before hle hlt => ?_⟩
  simpa using hnone before hle hlt

theorem indexOf_none (hopener : opener ≠ []) (h : indexOf source opener start = none)
    (hle : start ≤ place) :
    occursAt source opener place = false := by
  by_contra hoccurs
  have hoccurs := Bool.not_eq_false _ ▸ hoccurs
  have hlt := occursAt_lt hopener hoccurs
  have hno := List.find?_range'_eq_none.mp h place hle (by omega)
  rw [hoccurs] at hno
  cases hno

theorem canClose_iff :
    occursAt source opener place = true ∧ canClose isSpace isWordChar source opener place = true ↔
    ClosesAt isSpace isWordChar source opener place := by
  unfold ClosesAt canClose
  apply and_congr_right
  intro _
  rw [Bool.and_eq_true, Bool.and_eq_true, Bool.or_eq_true, decide_eq_true_iff, decide_eq_true_iff,
    Option.any_eq_true]
  apply and_congr
  · constructor
    · rintro ⟨hfirst, before, hbefore, hspace⟩
      exact ⟨before, Nat.one_le_iff_ne_zero.mpr hfirst, hbefore, by simpa using hspace⟩
    · rintro ⟨before, hfirst, hbefore, hspace⟩
      exact ⟨Nat.one_le_iff_ne_zero.mp hfirst, before, hbefore, by simpa using hspace⟩
  · constructor
    · intro h hunder next hnext
      rcases h with hother | hword
      · exact absurd hunder hother
      · rw [hnext] at hword
        simpa using hword
    · intro h
      by_cases hunder : opener.head? = some underscore
      · right
        cases hnext : source[place + opener.length]? with
        | none => rfl
        | some next => simpa using h hunder next hnext
      · exact Or.inl hunder

/-- The places worked out are those where a span can close, in order. -/
theorem closesFrom_spec (hopener : opener ≠ []) (hturns : source.length - start ≤ turns) :
    (closesFrom isSpace isWordChar source opener turns start).Pairwise (· < ·) ∧
      ∀ place, place ∈ closesFrom isSpace isWordChar source opener turns start ↔
        start ≤ place ∧ ClosesAt isSpace isWordChar source opener place := by
  induction turns generalizing start with
  | zero =>
    refine ⟨List.Pairwise.nil, fun place => iff_of_false (by simp [closesFrom]) ?_⟩
    rintro ⟨hle, hcloses⟩
    have hlt := occursAt_lt hopener hcloses.1
    omega
  | succ turns ih =>
    rw [closesFrom]
    cases hindex : indexOf source opener start with
    | none =>
      refine ⟨List.Pairwise.nil, fun place => iff_of_false (by simp) ?_⟩
      rintro ⟨hle, hcloses⟩
      have hnone := indexOf_none hopener hindex hle
      rw [hcloses.1] at hnone
      cases hnone
    | some first =>
      obtain ⟨hle, hoccurs, hbefore⟩ := indexOf_some hindex
      have hfirst := occursAt_lt hopener hoccurs
      obtain ⟨hsorted, hmem⟩ := @ih (first + 1) (by omega)
      -- Nothing occurs before the first.
      have hfrom : ∀ place, start ≤ place ∧ ClosesAt isSpace isWordChar source opener place ↔
          (place = first ∧ ClosesAt isSpace isWordChar source opener first) ∨
            (first + 1 ≤ place ∧ ClosesAt isSpace isWordChar source opener place) := by
        intro place
        constructor
        · rintro ⟨hstart, hcloses⟩
          rcases lt_trichotomy place first with hlt | heq | hgt
          · have hno := hbefore place hstart hlt
            rw [hcloses.1] at hno
            cases hno
          · exact Or.inl ⟨heq, heq ▸ hcloses⟩
          · exact Or.inr ⟨hgt, hcloses⟩
        · rintro (⟨heq, hcloses⟩ | ⟨hgt, hcloses⟩)
          · exact ⟨heq ▸ hle, heq ▸ hcloses⟩
          · exact ⟨by omega, hcloses⟩
      dsimp only
      split
      · next hcan =>
        refine ⟨List.pairwise_cons.mpr ⟨fun later hlater => ((hmem later).mp hlater).1, hsorted⟩,
          fun place => ?_⟩
        rw [List.mem_cons, hmem, hfrom]
        exact or_congr_left (iff_self_and.mpr fun _ => canClose_iff.mp ⟨hoccurs, hcan⟩)
      · next hcannot =>
        refine ⟨hsorted, fun place => ?_⟩
        rw [hmem, hfrom]
        refine (or_iff_right ?_).symm
        rintro ⟨-, hcloses⟩
        exact hcannot (canClose_iff.mpr hcloses).2

/-- The search keeps everything before `low` below `start` and everything from `high` on at it or
after. -/
theorem lowerBound_spec {found : List ℕ} (hsorted : found.Pairwise (· < ·)) {low high : ℕ}
    (hle : low ≤ high)
    (hhigh : high ≤ found.length) (hturns : high - low ≤ turns)
    (hbelow : ∀ index < low, found.getD index 0 < start)
    (habove : ∀ index, high ≤ index → index < found.length → start ≤ found.getD index 0) :
    (∀ index < lowerBound found start turns low high, found.getD index 0 < start) ∧
      lowerBound found start turns low high ≤ found.length ∧
      ∀ index, lowerBound found start turns low high ≤ index → index < found.length →
        start ≤ found.getD index 0 := by
  have hmono : ∀ first later, first ≤ later → later < found.length →
      found.getD first 0 ≤ found.getD later 0 := by
    intro first later hfirst hlater
    rw [List.getD_eq_getElem _ _ (by omega), List.getD_eq_getElem _ _ hlater]
    rcases Nat.eq_or_lt_of_le hfirst with heq | hlt
    · subst heq
      exact le_rfl
    · exact (List.pairwise_iff_getElem.mp hsorted first later (by omega) hlater hlt).le
  induction turns generalizing low high with
  | zero =>
    rw [lowerBound]
    exact ⟨hbelow, by omega, fun index hlow => habove index (by omega)⟩
  | succ turns ih =>
    rw [lowerBound]
    split
    · next hless =>
      have hmiddle : low ≤ (low + high) / 2 ∧ (low + high) / 2 < high := by omega
      dsimp only
      split
      · next hsmall =>
        apply ih (by omega) hhigh (by omega) _ habove
        intro index hindex
        exact lt_of_le_of_lt (hmono index ((low + high) / 2) (by omega) (by omega)) hsmall
      · next hlarge =>
        apply ih (by omega) (by omega) (by omega) hbelow
        intro index hindex hlength
        exact (not_lt.mp hlarge).trans (hmono _ index hindex hlength)
    · next hdone => exact ⟨hbelow, by omega, fun index hlow => habove index (by omega)⟩

/-- What is looked up by halves is the least place from `start` on. -/
theorem lookup_least (hopener : opener ≠ []) (start : ℕ) :
    let found := closesFrom isSpace isWordChar source opener source.length 1
    ∀ place, found[lowerBound found start found.length 0 found.length]? = some place ↔
      IsLeast {place | start ≤ place ∧ ClosesAt isSpace isWordChar source opener place} place := by
  intro found place
  have hspec : found.Pairwise (· < ·) ∧
      ∀ place, place ∈ found ↔ 1 ≤ place ∧ ClosesAt isSpace isWordChar source opener place :=
    closesFrom_spec hopener (Nat.sub_le _ _)
  clear_value found
  obtain ⟨hsorted, hmem⟩ := hspec
  obtain ⟨hbelow, hbound, habove⟩ :=
    @lowerBound_spec start found.length found hsorted 0 found.length (Nat.zero_le _) le_rfl
    (Nat.sub_le _ _) (fun index hindex => absurd hindex (Nat.not_lt_zero _))
      (fun index hle hlt => absurd hlt (not_lt.mpr hle))
  generalize hat :
    lowerBound found start found.length 0 found.length = bottom at hbelow hbound habove
  -- A place is worked out just when a span can close there.
  have hfound : ∀ place, place ∈ found ↔ ClosesAt isSpace isWordChar source opener place := by
    intro place
    refine (hmem place).trans (and_iff_right_of_imp ?_)
    rintro ⟨-, ⟨before, hfirst, -⟩, -⟩
    exact hfirst
  constructor
  · intro hplace
    obtain ⟨hlt, heq⟩ := List.getElem?_eq_some_iff.mp hplace
    have hstart := habove bottom le_rfl hlt
    rw [List.getD_eq_getElem _ _ hlt, heq] at hstart
    refine ⟨⟨hstart, (hfound place).mp (List.mem_of_getElem? hplace)⟩, ?_⟩
    rintro other ⟨hother, hcloses⟩
    obtain ⟨index, hindex, hvalue⟩ := List.getElem_of_mem ((hfound other).mpr hcloses)
    by_contra hless
    have hearlier : index < bottom := by
      by_contra hlater
      rcases Nat.eq_or_lt_of_le (not_lt.mp hlater) with hsame | hafter
      · subst hsame
        omega
      · have hlt' := List.pairwise_iff_getElem.mp hsorted bottom index hlt hindex hafter
        omega
    have hsmall := hbelow index hearlier
    rw [List.getD_eq_getElem _ _ hindex, hvalue] at hsmall
    omega
  · rintro ⟨⟨hstart, hcloses⟩, hleast⟩
    obtain ⟨index, hindex, hvalue⟩ := List.getElem_of_mem ((hfound place).mpr hcloses)
    have hlater : bottom ≤ index := by
      by_contra hearlier
      have hsmall := hbelow index (not_le.mp hearlier)
      rw [List.getD_eq_getElem _ _ hindex, hvalue] at hsmall
      omega
    rcases Nat.eq_or_lt_of_le hlater with hsame | hafter
    · subst hsame
      rw [List.getElem?_eq_getElem hindex, hvalue]
    · -- What is found there would be less.
      have hbottom : bottom < found.length := by omega
      have hfirst := habove bottom le_rfl hbottom
      have hless := List.pairwise_iff_getElem.mp hsorted bottom index hbottom hindex hafter
      rw [List.getD_eq_getElem _ _ hbottom] at hfirst
      have hle := hleast ⟨hfirst, (hfound _).mp (List.getElem_mem hbottom)⟩
      omega

end Closes

section Asking
variable {isSpace isWordChar : CodeUnit → Bool} {partners : Partners} {ask : Ask}

variable (isSpace isWordChar) in
/-- What was worked out is what the scans find. -/
structure Partners.Right (partners : Partners) : Prop where
  brackets : ∀ kind partner, partners.brackets kind = some partner →
    partner = partnerOf partners.source kind
  closes : ∀ opener found, partners.closes opener = some found →
    found = closesFrom isSpace isWordChar partners.source opener partners.source.length 1

theorem new_right (source : Source) : (Partners.new source).Right isSpace isWordChar := by
  constructor
  · intro kind partner h
    exact absurd h (Option.some_ne_none partner).symm
  · intro opener found h
    exact absurd h (Option.some_ne_none found).symm

theorem bracket_right (h : partners.Right isSpace isWordChar) (place : ℕ) (kind : Kind) :
    (partners.bracket place kind).1 = partnerOf partners.source kind place ∧
      (partners.bracket place kind).2.source = partners.source ∧
      (partners.bracket place kind).2.Right isSpace isWordChar := by
  unfold Partners.bracket
  split
  · next partner hkept => exact ⟨by rw [h.brackets kind partner hkept], rfl, h⟩
  · next hnew =>
    refine ⟨congrFun (fillPartners_all _ _) place, rfl, ?_, h.closes⟩
    intro other partner hkept
    by_cases hsame : other = kind
    · subst hsame
      dsimp only at hkept ⊢
      rw [Function.update_self, fillPartners_all] at hkept
      exact (Option.some.inj hkept).symm
    · dsimp only at hkept
      rw [Function.update_of_ne hsame] at hkept
      exact h.brackets other partner hkept

theorem emphasisClose_right (h : partners.Right isSpace isWordChar) (opener : Source) (start : ℕ) :
    let found := closesFrom isSpace isWordChar partners.source opener partners.source.length 1
    (partners.emphasisClose isSpace isWordChar opener start).1 =
        found[lowerBound found start found.length 0 found.length]? ∧
      (partners.emphasisClose isSpace isWordChar opener start).2.source = partners.source ∧
      (partners.emphasisClose isSpace isWordChar opener start).2.Right isSpace isWordChar := by
  intro found
  -- Kept from before or worked out now, the places are the same.
  have hfound : (match partners.closes opener with
      | some found => found
      | none => closesFrom isSpace isWordChar partners.source opener partners.source.length 1) =
          found := by
    split
    · next kept hkept => exact h.closes opener kept hkept
    · rfl
  unfold Partners.emphasisClose
  rw [hfound]
  refine ⟨rfl, rfl, h.brackets, ?_⟩
  intro other kept hkept
  by_cases hsame : other = opener
  · subst hsame
    dsimp only at hkept
    rw [Function.update_self] at hkept
    exact (Option.some.inj hkept).symm
  · dsimp only at hkept
    rw [Function.update_of_ne hsame] at hkept
    exact h.closes other kept hkept

/-- Every answer is what a scan would find, and leaves what was worked out right. -/
theorem answer_right (h : partners.Right isSpace isWordChar)
    (hask : ∀ opener start, ask = .emphasisClose opener start → opener ≠ []) :
    Answers isSpace isWordChar partners.source ask (partners.answer isSpace isWordChar ask).1 ∧
      (partners.answer isSpace isWordChar ask).2.source = partners.source ∧
      (partners.answer isSpace isWordChar ask).2.Right isSpace isWordChar := by
  cases ask with
  | bracket place kind =>
    have hbracket := bracket_right h place kind
    refine ⟨?_, hbracket.2⟩
    intro hopen
    calc (partners.bracket place kind).1
      _ = partnerOf partners.source kind place := hbracket.1
      _ = plainScan partners.source kind 0 (place + 1) := by rw [partnerOf, if_pos hopen]
  | emphasisClose opener start =>
    have hclose := emphasisClose_right h opener start
    refine ⟨?_, hclose.2⟩
    intro place
    rw [Partners.answer, hclose.1]
    exact lookup_least (hask opener start rfl) start place

theorem answers_right (h : partners.Right isSpace isWordChar) {asks : List Ask}
    (hasks : ∀ opener start, .emphasisClose opener start ∈ asks → opener ≠ []) :
    List.Forall₂ (Answers isSpace isWordChar partners.source) asks
      (partners.answers isSpace isWordChar asks) := by
  induction asks generalizing partners with
  | nil => exact List.Forall₂.nil
  | cons ask asks ih =>
    have hfirst := @answer_right isSpace isWordChar partners ask h (by
      intro opener start heq
      exact hasks opener start (heq ▸ List.mem_cons_self))
    obtain ⟨hanswer, hsource, hright⟩ := hfirst
    apply List.Forall₂.cons hanswer
    rw [← hsource]
    apply ih hright
    intro opener start hmem
    exact hasks opener start (List.mem_cons_of_mem ask hmem)

/-- One source's partners answer every question, in whatever order they are asked, as the scans from
each opener do: a bracket's partner is where its scan ends, and an emphasis closes at the first
place from the start on where it may. -/
theorem answers_scanned (isSpace isWordChar : CodeUnit → Bool) (source : Source) (asks : List Ask)
    (hasks : ∀ opener start, .emphasisClose opener start ∈ asks → opener ≠ []) :
    List.Forall₂ (Answers isSpace isWordChar source) asks
      ((Partners.new source).answers isSpace isWordChar asks) :=
  answers_right (new_right source) hasks

/-- `[a](b)**c**`. -/
def aLink : Source := [0x5B, 0x61, 0x5D, 0x28, 0x62, 0x29, 0x2A, 0x2A, 0x63, 0x2A, 0x2A]

/-- Both kinds of bracket and an emphasis, asked out of order. -/
def aFewAsks : List Ask := [.emphasisClose [0x2A, 0x2A] 8, .bracket 3 .round, .bracket 0 .square]

theorem answers_scanned_link : List.Forall₂ (Answers (· = 0x20) (fun _ => false) aLink) aFewAsks
    ((Partners.new aLink).answers (· = 0x20) (fun _ => false) aFewAsks) := by
  apply answers_scanned
  intro opener start hmem
  simp only [aFewAsks, List.mem_cons, Ask.emphasisClose.injEq, List.not_mem_nil, reduceCtorEq,
    or_false] at hmem
  rw [hmem.1]
  exact List.cons_ne_nil _ _

example : (Partners.new aLink).answers (· = 0x20) (fun _ => false) aFewAsks =
    [some 9, some 5, some 2] := by
  decide

end Asking

end Linger.SpanPartners
