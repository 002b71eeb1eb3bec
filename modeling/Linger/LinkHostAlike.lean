import Mathlib.Data.Bool.AllAny
import Linger.ArchiveBodyBlocks
import Linger.LinkHost
import Linger.ReadAlike

/-! That the archive's pages and the app unmask the same links: the archive splits by hand what the
app has patterns for, and the two come to the same wherever their tables of characters do. -/
namespace Linger.LinkHost
open CheckedText
open Patterns Patterns.Pattern
open Names (Text isWhitespace)
open AppMarkdown (isSpace)
open ArchiveBody (Url Outside)

section Cuts

variable {text before after before' after' pattern : Text} {x : Char}

theorem findText_append (h : x ∉ before) :
    findText (x :: pattern) (before ++ (x :: pattern) ++ after) = some (byteLen before) := by
  induction before with
  | nil =>
    have hprefix : (x :: pattern).isPrefixOf (x :: (pattern ++ after)) = true := by
      apply List.isPrefixOf_iff_prefix.mpr
      exact List.prefix_append (x :: pattern) after
    rw [List.nil_append, List.cons_append, findText, if_pos hprefix]
    rfl
  | cons c before ih =>
    rw [List.mem_cons, not_or] at h
    have hnot : (x :: pattern).isPrefixOf (c :: (before ++ (x :: pattern) ++ after)) ≠ true := by
      rw [Ne, List.isPrefixOf_iff_prefix, List.cons_prefix_cons]
      exact fun hboth => h.1 hboth.1
    rw [List.cons_append, List.cons_append, findText, if_neg hnot, ih h.2]
    rfl

theorem bytesTo_unique (htext : before ++ after = before' ++ after')
    (hbytes : byteLen before = byteLen before') :
    before = before' := by
  have hcut := bytesTo_append before after
  rw [htext, hbytes, bytesTo_append] at hcut
  exact (Except.ok.inj hcut).symm

theorem rfind_none (h : x ∉ text) : rfind x text = none := by
  induction text with
  | nil => rfl
  | cons c text ih =>
    rw [List.mem_cons, not_or] at h
    rw [rfind, ih h.2]
    exact if_neg (Ne.symm h.1)

theorem rfind_append (h : x ∉ after) : rfind x (before ++ x :: after) = some (byteLen before) := by
  induction before with
  | nil =>
    rw [List.nil_append, rfind, rfind_none h]
    exact if_pos rfl
  | cons c before ih => rw [List.cons_append, rfind, ih, byteLen_cons]

theorem lastIndexOf_none (h : x ∉ text) : lastIndexOf x text = none := by
  rw [← Option.not_isSome_iff_eq_none, lastIndexOf_isSome]
  exact h

theorem lastIndexOf_append (h : x ∉ after) :
    lastIndexOf x (before ++ x :: after) = some before.length := by
  induction before with
  | nil =>
    rw [List.nil_append, lastIndexOf, lastIndexOf_none h]
    exact if_pos rfl
  | cons c before ih => rw [List.cons_append, lastIndexOf, ih, List.length_cons]

theorem rsplitOnce_append (h : x ∉ after) :
    ArchiveBody.rsplitOnce x (before ++ x :: after) = some (before, after) := by
  have hsplit : ArchiveBody.splitOnce x (before ++ x :: after).reverse =
      some (after.reverse, before.reverse) := by
    rw [ArchiveBody.splitOnce_some, List.mem_reverse]
    exact ⟨by simp, h⟩
  rw [ArchiveBody.rsplitOnce, hsplit, Option.map_some]
  dsimp only
  rw [List.reverse_reverse, List.reverse_reverse]

theorem rsplitOnce_none (h : x ∉ text) : ArchiveBody.rsplitOnce x text = none := by
  rw [ArchiveBody.rsplitOnce, ArchiveBody.splitOnce, if_neg (by simpa using h)]
  rfl

/-- What stands before the first such character. -/
theorem bytesTo_find {holds : Char → Bool} (text : Text) :
    bytesTo text ((find holds text).getD (byteLen text)) =
      .ok (text.takeWhile fun c => !holds c) := by
  induction text with
  | nil => rfl
  | cons c text ih =>
    rw [find]
    split
    · next hc =>
      rw [List.takeWhile_cons_of_neg (by simp [hc])]
      exact bytesTo_append [] (c :: text)
    · next hc =>
      have hplace : ((find holds text).map (c.utf8Size + ·)).getD (byteLen (c :: text)) =
          c.utf8Size + (find holds text).getD (byteLen text) := by
        cases find holds text with
        | none => rfl
        | some place => rfl
      obtain ⟨n, hn⟩ : ∃ n, c.utf8Size + (find holds text).getD (byteLen text) = n + 1 :=
        ⟨c.utf8Size + (find holds text).getD (byteLen text) - 1, by have := c.utf8Size_pos; omega⟩
      have hle : c.utf8Size ≤ n + 1 := by omega
      have hrest : n + 1 - c.utf8Size = (find holds text).getD (byteLen text) := by omega
      rw [bytesTo, hplace, hn, splitAtByte, if_pos hle, hrest,
        List.takeWhile_cons_of_pos (by simp [hc])]
      rw [bytesTo] at ih
      cases hcut : splitAtByte text ((find holds text).getD (byteLen text)) with
      | error stop =>
        rw [hcut] at ih
        cases ih
      | ok parts =>
        rw [hcut] at ih
        have hfirst : parts.1 = text.takeWhile fun c => !holds c := Except.ok.inj ih
        rw [← hfirst]
        rfl

end Cuts

section Chars

variable {c : Char}

/-- What a label of an `xn--` name holds, once lowered. -/
theorem lowered_label :
    (c.toLower.isLower || c.toLower.isDigit || c.toLower = '-') = (c.isAlphanum || c = '-') := by
  by_cases hsmall : c.toNat < 128
  · have hall :
        ∀ n ∈ List.range 128, ((Char.ofNat n).toLower.isLower || (Char.ofNat n).toLower.isDigit ||
        (Char.ofNat n).toLower = '-') =
          ((Char.ofNat n).isAlphanum || Char.ofNat n = '-') := by decide +kernel
    have hc := hall c.toNat (List.mem_range.mpr hsmall)
    rwa [Char.ofNat_toNat] at hc
  · have hlower : c.toLower = c := ReadAlike.toLower_eq (by omega)
    have hupper : c.isUpper = false := by
      have hval : c.val.toNat = c.toNat := rfl
      have hz : 'Z'.val.toNat = 90 := rfl
      change decide (c.val ≥ 'A'.val ∧ c.val ≤ 'Z'.val) = false
      simp only [decide_eq_false_iff_not, ge_iff_le, UInt32.le_iff_toNat_le]
      omega
    have halphanum : c.isAlphanum = (c.isUpper || c.isLower || c.isDigit) := rfl
    rw [hlower, halphanum, hupper, Bool.false_or]

theorem toLower_mem (small big : Char)
    (hboth : (small, big) ∈ [('x', 'X'), ('n', 'N'), ('-', '-')]) :
    c.toLower = small ↔ c ∈ [small, big] := by
  by_cases hsmall : c.toNat < 128
  · have hall : ∀ pair ∈ [('x', 'X'), ('n', 'N'), ('-', '-')], ∀ n ∈ List.range 128,
        ((Char.ofNat n).toLower = pair.1 ↔ Char.ofNat n ∈ [pair.1, pair.2]) := by decide +kernel
    have hc := hall (small, big) hboth c.toNat (List.mem_range.mpr hsmall)
    rwa [Char.ofNat_toNat] at hc
  · have hlower : c.toLower = c := ReadAlike.toLower_eq (by omega)
    have hbig : big.toNat < 128 := by
      have hall : ∀ pair ∈ [('x', 'X'), ('n', 'N'), ('-', '-')], pair.2.toNat < 128 := by decide
      exact hall (small, big) hboth
    have hne : c ≠ big := by
      rintro rfl
      exact hsmall hbig
    rw [hlower, List.mem_cons, List.mem_singleton, or_iff_left hne]

/-- Digits take a byte each. -/
theorem byteLen_digits {digits : Text} (h : ∀ c ∈ digits, c.isDigit = true) :
    byteLen digits = digits.length :=
  byteLen_of_ascii fun c hc => ArchiveBody.isDigit_size (h c hc)

theorem byteLen_pos {text : Text} : 1 ≤ byteLen text ↔ 1 ≤ text.length := by
  cases text with
  | nil => exact Iff.rfl
  | cons c text =>
    have hpositive := c.utf8Size_pos
    rw [byteLen_cons, List.length_cons]
    omega

end Chars

section Parts

variable {text host typed label : Text} {c : Char}

/-- The text before `://` is a scheme for one side when it is for the other. -/
theorem hasScheme_eq (text : Text) :
    ArchiveBody.hasScheme text = .ok (withScheme.accepts text) := by
  have hslashes {scheme after : Text} (hscheme : Scheme scheme) :
      findText "://".toList (scheme ++ "://".toList ++ after) = some (byteLen scheme) := by
    apply findText_append
    exact fun hin => hscheme.plain ':' hin (by decide)
  rw [ArchiveBody.hasScheme]
  cases hfind : findText "://".toList text with
  | none =>
    have hnot : withScheme.accepts text = false := by
      apply Bool.eq_false_iff.mpr
      intro haccepts
      obtain ⟨scheme, after, hscheme, rfl⟩ := withScheme_iff.mp haccepts
      rw [hslashes hscheme] at hfind
      cases hfind
    rw [hnot]
    rfl
  | some stop =>
    obtain ⟨before, after, rfl, rfl⟩ := findText_spec hfind
    have hcut : bytesTo (before ++ "://".toList ++ after) (byteLen before) = .ok before := by
      rw [List.append_assoc, bytesTo_append]
    have hscheme : (before.head?.any Char.isAlpha && before.tail.all fun c => c.isAlphanum ||
        c ∈ ['+', '.', '-']) =
        withScheme.accepts (before ++ "://".toList ++ after) := by
      rw [Bool.eq_iff_iff, withScheme_iff, Bool.and_eq_true, List.all_eq_true]
      constructor
      · rintro ⟨hfirst, hrest⟩
        cases before with
        | nil => cases hfirst
        | cons first rest => exact ⟨first :: rest, after, ⟨first, rest, rfl, hfirst, hrest⟩, rfl⟩
      · rintro ⟨scheme, after', hscheme, htext⟩
        rw [htext, hslashes hscheme, Option.some.injEq] at hfind
        rw [List.append_assoc, List.append_assoc] at htext
        obtain ⟨first, rest, hparts, hfirst, hrest⟩ := hscheme
        rw [bytesTo_unique htext hfind.symm, hparts]
        exact ⟨hfirst, hrest⟩
    rw [← hscheme]
    show (bytesTo _ _ >>= _) = _
    rw [hcut]
    rfl

/-- What the archive asks of a bare host, as the app's pattern has it. -/
theorem bare_iff
    (hsolid : ∀ c ∈ host, (isWhitespace c = false ∧ isSpace c = false) ∧ c ∉ ['/', '?', '#']) :
    (!(host.any fun c => c ∈ ['@', ':', '\\'] || isWhitespace c) &&
      (rfind '.' host).any fun dot => decide (1 ≤ dot ∧ dot + 1 < byteLen host)) = true ↔
    ∃ name last, host = name ++ '.' :: last ∧ (1 ≤ name.length ∧ ∀ c ∈ name, isNameChar c = true) ∧
      1 ≤ last.length ∧ ∀ c ∈ last, isNameChar c = true ∧ c ≠ '.' := by
  have hany : (host.any fun c => c ∈ ['@', ':', '\\'] || isWhitespace c) = false ↔
      ∀ c ∈ host, isNameChar c = true := by
    rw [List.any_eq_false]
    apply forall₂_congr
    intro c hc
    obtain ⟨⟨hblank, hspace⟩, hmark⟩ := hsolid c hc
    have hmarks : c ∈ ['/', '?', '#', '@', ':', '\\'] ↔ c ∈ ['@', ':', '\\'] := by
      rw [show ['/', '?', '#', '@', ':', '\\'] = ['/', '?', '#'] ++ ['@', ':', '\\'] from rfl,
        List.mem_append, or_iff_right hmark]
    rw [hblank, Bool.or_false, decide_eq_true_eq, isNameChar, hspace, Bool.false_or,
      Bool.not_eq_true', decide_eq_false_iff_not, hmarks]
  have hstop {name last : Text} (hlast : '.' ∉ last) :
      ((rfind '.' (name ++ '.' :: last)).any fun dot =>
        decide (1 ≤ dot ∧ dot + 1 < byteLen (name ++ '.' :: last))) = true ↔
        1 ≤ name.length ∧ 1 ≤ last.length := by
    have hsize : Char.utf8Size '.' = 1 := by decide
    rw [rfind_append hlast, Option.any_some, decide_eq_true_eq, byteLen_append, byteLen_cons, hsize,
      ← byteLen_pos, ← byteLen_pos]
    omega
  rw [Bool.and_eq_true, Bool.not_eq_true', hany]
  constructor
  · rintro ⟨hall, h⟩
    by_cases hdot : '.' ∈ host
    · obtain ⟨name, last, rfl, hlast⟩ := last_of_mem hdot
      obtain ⟨hnameLength, hlastLength⟩ := (hstop hlast).mp h
      have hname : ∀ c ∈ name, isNameChar c = true := fun c hc => hall c (by simp [hc])
      have hends : ∀ c ∈ last, isNameChar c = true ∧ c ≠ '.' :=
        fun c hc => ⟨hall c (by simp [hc]), fun heq => hlast (heq ▸ hc)⟩
      exact ⟨name, last, rfl, ⟨hnameLength, hname⟩, hlastLength, hends⟩
    · rw [rfind_none hdot] at h
      cases h
  · rintro ⟨name, last, rfl, hname, hlast⟩
    have hnot : '.' ∉ last := fun hin => (hlast.2 '.' hin).2 rfl
    refine ⟨?_, (hstop hnot).mpr ⟨hname.1, hlast.1⟩⟩
    apply List.forall_mem_append.mpr ⟨hname.2, _⟩
    exact List.forall_mem_cons.mpr ⟨by decide, fun c hc => (hlast.2 c hc).1⟩

/-- A host's port is taken off by both: what follows its last colon, if nothing but digits does. -/
theorem stripPort_eq (host : Text) : ArchiveBody.stripPort host = port.dropEnd host := by
  have haccepts (text : Text) : port.accepts text = true ↔
      ∃ digits, text = ':' :: digits ∧ ∀ c ∈ digits, c.isDigit = true := by
    rw [accepts_iff, port, mem_one_seq]
    constructor
    · rintro ⟨colon, digits, rfl, hcolon, hdigits⟩
      rw [of_decide_eq_true hcolon]
      exact ⟨digits, rfl, mem_many_one.mp hdigits⟩
    · rintro ⟨digits, rfl, hdigits⟩
      exact ⟨':', digits, rfl, rfl, mem_many_one.mpr hdigits⟩
  have hcolon {digits : Text} (hdigits : ∀ c ∈ digits, c.isDigit = true) : ':' ∉ digits :=
    fun hin => isDigit_plain (hdigits ':' hin) (by decide)
  by_cases hin : ':' ∈ host
  · obtain ⟨name, rest, rfl, hrest⟩ := last_of_mem hin
    rw [ArchiveBody.stripPort, rsplitOnce_append hrest]
    dsimp only
    split
    · next hdigits =>
      -- A longer match would have this colon among its digits.
      rw [List.all_eq_true] at hdigits
      symm
      apply dropEnd_append (by simp) ((haccepts _).mpr ⟨rest, rfl, hdigits⟩)
      intro before after _ hafter
      apply Bool.eq_false_iff.mpr
      intro hlonger
      obtain ⟨digits, htext, hall⟩ := (haccepts _).mp hlonger
      cases after with
      | nil => exact hafter rfl
      | cons first after =>
        apply hcolon hall
        rw [← (List.cons.inj htext).2]
        simp
    · next hdigits =>
      -- A match would start at the last colon, where something else than digits follows.
      symm
      apply dropEnd_none
      intro before after htext _
      apply Bool.eq_false_iff.mpr
      intro hmatch
      obtain ⟨digits, rfl, hall⟩ := (haccepts _).mp hmatch
      have hsame : ArchiveBody.rsplitOnce ':' (before ++ ':' :: digits) = some (before, digits) :=
        rsplitOnce_append (hcolon hall)
      rw [← htext, rsplitOnce_append hrest, Option.some.injEq, Prod.mk.injEq] at hsame
      rw [hsame.2, List.all_eq_true] at hdigits
      exact hdigits hall
  · rw [ArchiveBody.stripPort, rsplitOnce_none hin]
    symm
    apply dropEnd_none
    rintro before after rfl -
    apply Bool.eq_false_iff.mpr
    intro hmatch
    obtain ⟨digits, rfl, -⟩ := (haccepts _).mp hmatch
    exact hin (by simp)

theorem stripLast_eq (text : Text) : ArchiveBody.stripLast '.' text = lastStop.dropEnd text := by
  rw [ArchiveBody.stripLast, lastStop]
  split
  · next hlast =>
    obtain ⟨before, rfl⟩ := List.getLast?_eq_some_iff.mp hlast
    rw [List.dropLast_concat, dropEnd_one_append rfl]
  · next hlast =>
    symm
    apply dropEnd_one_none
    intro c hc
    apply decide_eq_false
    rintro rfl
    exact hlast hc

theorem few_iff {digits : Text} :
    (decide (1 ≤ byteLen digits ∧ byteLen digits ≤ 3) && digits.all Char.isDigit) = true ↔
    Few digits := by
  rw [Bool.and_eq_true, decide_eq_true_eq, List.all_eq_true, Few]
  apply and_congr_left
  intro hdigits
  rw [byteLen_digits hdigits]

/-- Four parts between dots, or four runs of digits with dots between them. -/
theorem dottedQuad_eq (text : Text) : ArchiveBody.dottedQuad text = dottedQuad.accepts text := by
  rw [Bool.eq_iff_iff, dottedQuad_iff, ArchiveBody.dottedQuad, Bool.and_eq_true, decide_eq_true_eq,
    List.all_eq_true]
  constructor
  · rintro ⟨hfour, hall⟩
    obtain ⟨first, second, third, fourth, hparts⟩ := List.length_eq_four.mp hfour
    have htext : ['.'].intercalate (text.splitOn '.') = text := List.intercalate_splitOn '.'
    rw [hparts] at htext hall
    have hfew : ∀ part ∈ [first, second, third, fourth], Few part :=
      fun part hin => few_iff.mp (hall part hin)
    refine ⟨first, second, third, fourth, hfew _ (by simp), hfew _ (by simp), hfew _ (by simp),
      hfew _ (by simp), ?_⟩
    rw [← htext]
    simp [List.intercalate]
  · rintro ⟨first, second, third, fourth, hfirst, hsecond, hthird, hfourth, rfl⟩
    have hdot {part : Text} (h : Few part) : '.' ∉ part :=
      fun hin => absurd (h.2 '.' hin) (by decide)
    rw [List.splitOn_append_cons_self_of_not_mem (hdot hfirst),
      List.splitOn_append_cons_self_of_not_mem (hdot hsecond),
      List.splitOn_append_cons_self_of_not_mem (hdot hthird),
      List.splitOn_eq_singleton (hdot hfourth)]
    refine ⟨rfl, fun part hin => few_iff.mpr ?_⟩
    simp only [List.mem_cons, List.not_mem_nil, or_false] at hin
    rcases hin with rfl | rfl | rfl | rfl
    · exact hfirst
    · exact hsecond
    · exact hthird
    · exact hfourth

/-- A text without whitespace is a bare domain for one side when it is for the other. -/
theorem bareDomain_eq (hsolid : ∀ c ∈ text, isWhitespace c = false ∧ isSpace c = false) :
    ArchiveBody.bareDomain text = .ok (bareDomain.accepts text) := by
  have hcut : bytesTo text ((find (· ∈ ['/', '?', '#']) text).getD (byteLen text)) =
      .ok (text.takeWhile (· ∉ ['/', '?', '#'])) := by
    rw [bytesTo_find]
    congr 2
    funext c
    rw [decide_not]
  have hsplit :
      text.takeWhile (· ∉ ['/', '?', '#']) ++ text.dropWhile (· ∉ ['/', '?', '#']) = text :=
    List.takeWhile_append_dropWhile
  have htail : text.dropWhile (· ∉ ['/', '?', '#']) = [] ∨ ∃ mark rest,
      text.dropWhile (· ∉ ['/', '?', '#']) = mark :: rest ∧ mark ∈ marks ∧
        ∀ c ∈ rest, isSpace c = false := by
    cases hdrop : text.dropWhile (· ∉ ['/', '?', '#']) with
    | nil => exact Or.inl rfl
    | cons mark rest =>
      have hmark : mark ∈ ['/', '?', '#'] := by
        apply head_dropWhile_mem ['/', '?', '#'] mark
        rw [hdrop]
        rfl
      refine Or.inr ⟨mark, rest, rfl, hmark, fun c hc => (hsolid c ?_).2⟩
      rw [← hsplit, hdrop]
      simp [hc]
  have hfront : ∀ c ∈ text.takeWhile (· ∉ ['/', '?', '#']), c ∉ ['/', '?', '#'] ∧ c ∈ text := by
    intro c hc
    have hnot := List.mem_takeWhile_imp hc
    exact ⟨of_decide_eq_true hnot, (List.takeWhile_prefix _).subset hc⟩
  -- What the patterns ask of the words, said of what stands before the path.
  have haccepts : bareDomain.accepts text = true ↔
      ∃ name last port', Domain name last port' (text.dropWhile (· ∉ ['/', '?', '#'])) ∧
        text.takeWhile (· ∉ ['/', '?', '#']) = name ++ '.' :: last ++ port' := by
    rw [bareDomain_iff]
    constructor
    · rintro ⟨name, last, port', tail, hdomain, rfl⟩
      have hbefore :=
        takeWhile_before (fun c hc => (hdomain.authority_plain c hc).1) hdomain.tail_head
      rw [hbefore, List.append_cancel_left_eq] at hsplit
      rw [hbefore, hsplit]
      exact ⟨name, last, port', hdomain, rfl⟩
    · rintro ⟨name, last, port', hdomain, hbefore⟩
      rw [hbefore] at hsplit
      exact ⟨name, last, port', _, hdomain, hsplit.symm⟩
  rw [ArchiveBody.bareDomain]
  show (bytesTo _ _ >>= _) = _
  rw [hcut]
  show Except.ok _ = _
  congr 1
  rw [Bool.eq_iff_iff, haccepts]
  generalize text.takeWhile (· ∉ ['/', '?', '#']) = hostPort at hfront ⊢
  generalize text.dropWhile (· ∉ ['/', '?', '#']) = tail at htail ⊢
  have hsound {host : Text} (hsub : ∀ c ∈ host, c ∈ hostPort) :
      ∀ c ∈ host, (isWhitespace c = false ∧ isSpace c = false) ∧ c ∉ ['/', '?', '#'] := by
    intro c hc
    have hboth := hfront c (hsub c hc)
    exact ⟨hsolid c hboth.2, hboth.1⟩
  -- The archive looks for the colon first; the pattern's host has none, so it is the port's.
  cases hcolon : ArchiveBody.splitOnce ':' hostPort with
  | none =>
    have hnone : ':' ∉ hostPort := ArchiveBody.splitOnce_none hcolon
    dsimp only
    rw [bare_iff (hsound fun _ hc => hc)]
    constructor
    · rintro ⟨name, last, rfl, hname, hlast⟩
      exact ⟨name, last, [], ⟨hname, hlast, Or.inl rfl, htail⟩, (List.append_nil _).symm⟩
    · rintro ⟨name, last, port', hdomain, rfl⟩
      rcases hdomain.port with rfl | ⟨digits, rfl, -⟩
      · exact ⟨name, last, List.append_nil _, hdomain.name, hdomain.last⟩
      · exact absurd (by simp) hnone
  | some parts =>
    obtain ⟨host, rest⟩ := parts
    obtain ⟨rfl, hnone⟩ := ArchiveBody.splitOnce_some.mp hcolon
    dsimp only
    rw [Bool.and_eq_true, bare_iff (hsound fun c hc => by simp [hc]), Bool.and_eq_true,
      decide_eq_true_eq, List.all_eq_true]
    constructor
    · rintro ⟨⟨hlength, hdigits⟩, name, last, rfl, hname, hlast⟩
      rw [byteLen_digits hdigits] at hlength
      exact ⟨name, last, ':' :: rest, ⟨hname, hlast, Or.inr ⟨rest, rfl, hlength, hdigits⟩, htail⟩,
        rfl⟩
    · rintro ⟨name, last, port', hdomain, htext⟩
      have hplain : ':' ∉ name ++ '.' :: last := fun hin => hdomain.plain ':' hin (by decide)
      rcases hdomain.port with rfl | ⟨digits, rfl, hlength, hdigits⟩
      · rw [List.append_nil] at htext
        rw [← htext] at hplain
        exact absurd (by simp) hplain
      · obtain ⟨rfl, rfl⟩ := split_unique hnone hplain htext
        rw [byteLen_digits hdigits]
        exact ⟨⟨hlength, hdigits⟩, name, last, rfl, hdomain.name, hdomain.last⟩

end Parts

section Alike

variable {outside : Outside} {isLetter : Char → Bool} {text label words href : Text} {c : Char}

/-- The app, with the URL parser and the lowercasing of the archive. -/
def browser (outside : Outside) (isLetter : Char → Bool) : Platform :=
  ⟨outside.parse, isLetter, outside.toLowercase⟩

/-- A last label each of whose characters both sides take for a letter or neither does. The long `s`
and the Kelvin sign stand in an `xn--` name for the app alone. -/
def EvenLabel (outside : Outside) (isLetter : Char → Bool) (label : Text) : Prop :=
  (∀ c ∈ label, outside.isAlphabetic c = isLetter c) ∧
    ("xn--".toList.isPrefixOf (label.map Char.toLower) = true →
      ∀ c ∈ label, c ∉ ['\u017f', '\u212a'])

/-- Words in which the two sides' tables of characters agree, where they are asked. -/
structure WordsAlike (outside : Outside) (isLetter : Char → Bool) (words : Text) : Prop where
  space : ∀ c ∈ words, ¬ReadAlike.Uneven c
  letter : ∀ url authority, Address (browser outside isLetter) (addressText words) url authority →
    EvenLabel outside isLetter (top (typedHost (browser outside isLetter) authority))

/-- A last label that looks real to one side does to the other. -/
theorem topLabel_eq (hdash : isLetter '-' = false) (heven : EvenLabel outside isLetter label) :
    ArchiveBody.topLabel outside label = (topLabel isLetter).accepts label := by
  have hletters : label.all outside.isAlphabetic = true ↔ ∀ c ∈ label, isLetter c = true := by
    rw [List.all_eq_true]
    apply forall₂_congr
    intro c hc
    rw [heven.1 c hc]
  have hlower : "xn--".toList.isPrefixOf (label.map Char.toLower) = true ↔
      ∃ x n rest, label = x :: n :: '-' :: '-' :: rest ∧ x ∈ ['x', 'X'] ∧ n ∈ ['n', 'N'] := by
    rw [List.isPrefixOf_iff_prefix]
    constructor
    · rintro ⟨rest, hrest⟩
      obtain ⟨x, fromN, rfl, hx, hfromN⟩ := List.map_eq_cons_iff.mp hrest.symm
      obtain ⟨n, fromDash, rfl, hn, hfromDash⟩ := List.map_eq_cons_iff.mp hfromN
      obtain ⟨dash, fromSecond, rfl, hfirst, hfromSecond⟩ := List.map_eq_cons_iff.mp hfromDash
      obtain ⟨dash', rest', rfl, hsecond, -⟩ := List.map_eq_cons_iff.mp hfromSecond
      have hdashes {c : Char} (h : c.toLower = '-') : c = '-' := by
        simpa using (toLower_mem '-' '-' (by simp)).mp h
      rw [hdashes hfirst, hdashes hsecond]
      exact ⟨x, n, rest', rfl, (toLower_mem 'x' 'X' (by simp)).mp hx,
        (toLower_mem 'n' 'N' (by simp)).mp hn⟩
    · rintro ⟨x, n, rest, rfl, hx, hn⟩
      have hx' : x.toLower = 'x' := (toLower_mem 'x' 'X' (by simp)).mpr hx
      have hn' : n.toLower = 'n' := (toLower_mem 'n' 'N' (by simp)).mpr hn
      refine ⟨rest.map Char.toLower, ?_⟩
      rw [List.map_cons, List.map_cons, hx', hn']
      rfl
  rw [Bool.eq_iff_iff, topLabel_iff, ArchiveBody.topLabel]
  split
  · next hxn =>
    obtain ⟨x, n, rest, rfl, hx, hn⟩ := hlower.mp hxn
    have hlabel : (rest.map Char.toLower).all (fun c => c.isLower || c.isDigit || c = '-') = true ↔
        ∀ c ∈ rest, isLabelChar c = true := by
      rw [List.all_map, List.all_eq_true]
      apply forall₂_congr
      intro c hc
      have hnot := heven.2 hxn c (by simp [hc])
      have hboth : c ∈ ['-', '\u017f', '\u212a'] ↔ c = '-' := by
        rw [List.mem_cons, or_iff_left hnot]
      rw [Function.comp_apply, lowered_label, isLabelChar, Bool.or_eq_true, Bool.or_eq_true,
        decide_eq_true_eq, decide_eq_true_eq, hboth]
    have hdrop :
        (List.map Char.toLower (x :: n :: '-' :: '-' :: rest)).drop 4 = rest.map Char.toLower := rfl
    rw [hdrop, Bool.and_eq_true, hlabel, Bool.not_eq_true', List.isEmpty_eq_false_iff,
      ← List.length_pos_iff, List.length_map, RealLabel]
    constructor
    · exact fun h => Or.inr ⟨x, n, rest, rfl, hx, hn, h⟩
    -- Such a label is no name in letters, for it has a hyphen.
    · rintro (⟨-, hall⟩ | ⟨x', n', rest', heq, -, -, hrest⟩)
      · rw [hall '-' (by simp)] at hdash
        cases hdash
      · simp only [List.cons.injEq, true_and] at heq
        rw [heq.2.2]
        exact hrest
  · next hxn =>
    rw [Bool.and_eq_true, decide_eq_true_eq, hletters, RealLabel]
    constructor
    · exact Or.inl
    · rintro (h | ⟨x, n, rest, rfl, hx, hn, -⟩)
      · exact h
      · exact absurd (hlower.mpr ⟨x, n, rest, rfl, hx, hn⟩) hxn

/-- What stands after the last `@`, by bytes and by characters. -/
theorem afterAt_eq (authority : Text) : ArchiveBody.afterAt authority (rfind '@' authority) =
      .ok ((lastIndexOf '@' authority).elim authority fun place => authority.drop (place + 1)) ∧
    (rfind '@' authority).isSome = (lastIndexOf '@' authority).isSome := by
  by_cases hin : '@' ∈ authority
  · obtain ⟨before, after, rfl, hafter⟩ := last_of_mem hin
    have hcut := bytesFrom_append (before ++ ['@']) after
    rw [byteLen_append, List.append_assoc] at hcut
    have hdrop : (before ++ '@' :: after).drop (before.length + 1) = after := by
      rw [← List.drop_drop, List.drop_left, List.drop_succ_cons, List.drop_zero]
    rw [rfind_append hafter, lastIndexOf_append hafter, Option.elim_some, hdrop]
    exact ⟨hcut, rfl⟩
  · rw [rfind_none hin, lastIndexOf_none hin]
    exact ⟨rfl, rfl⟩

theorem dropWhile_alike {p q : Char → Bool} (h : ∀ c ∈ text, p c = q c) :
    text.dropWhile p = text.dropWhile q := by
  induction text with
  | nil => rfl
  | cons c text ih =>
    rw [List.forall_mem_cons] at h
    rw [List.dropWhile_cons, List.dropWhile_cons, h.1, ih h.2]

theorem trim_eq (h : ∀ c ∈ words, ¬ReadAlike.Uneven c) :
    Names.trim words = AppMarkdown.trim words := by
  have hsame : ∀ c ∈ words, isWhitespace c = isSpace c := fun c hc => ReadAlike.not_uneven (h c hc)
  rw [Names.trim, AppMarkdown.trim, dropWhile_alike hsame]
  congr 1
  apply dropWhile_alike
  intro c hc
  exact hsame c (List.dropWhile_suffix _ |>.subset (List.mem_reverse.mp hc))

/-- Cutting an address out of words brings in no character but a dot. -/
theorem mem_addressText (hc : c ∈ addressText words) : c = '.' ∨ c ∈ words := by
  obtain ⟨d, hd, rfl⟩ := List.mem_map.mp hc
  split
  · exact Or.inl rfl
  · right
    have htrimmed : d ∈ AppMarkdown.trim words := (ReadAlike.trimAddress_prefix _).1.subset hd
    rw [AppMarkdown.trim, List.mem_reverse] at htrimmed
    have hfront := (List.dropWhile_suffix _).subset htrimmed
    exact (List.dropWhile_suffix _).subset (List.mem_reverse.mp hfront)

theorem host_eq (url : Url) : url.host.filter (fun host => !host.isEmpty) =
    if hostname url = [] then none else some (hostname url) := by
  rw [hostname]
  cases url.host with
  | none => rfl
  | some host =>
    cases host with
    | nil => rfl
    | cons c host => rfl

theorem web_eq (scheme : Text) : scheme ∈ ["http".toList, "https".toList] ↔ scheme ∈ web := by
  rw [web, List.mem_pair, List.mem_pair, or_comm]

theorem webHost_eq :
    ArchiveBody.webHost outside href = webHost (browser outside isLetter) href := by
  have hparse : (browser outside isLetter).parse = outside.parse := rfl
  rw [ArchiveBody.webHost, webHost, hparse]
  cases outside.parse href with
  | none => rfl
  | some url =>
    rw [Option.bind_some, Option.bind_eq_bind, Option.bind_some, host_eq]
    by_cases hweb : url.scheme ∈ web
    · rw [if_pos ((web_eq _).mpr hweb), if_neg (not_not.mpr hweb)]
      rfl
    · rw [if_neg fun h => hweb ((web_eq _).mp h), if_pos hweb]

/-- The two sides read the same address out of a text, or none. -/
theorem urlAndAuthority_eq (isLetter : Char → Bool)
    (hsolid : ∀ c ∈ text, isWhitespace c = false ∧ isSpace c = false) :
    ArchiveBody.wordsHost.urlAndAuthority outside text =
      found (urlAndAuthority (browser outside isLetter) text) := by
  have hparse : (browser outside isLetter).parse = outside.parse := rfl
  rw [ArchiveBody.wordsHost.urlAndAuthority, urlAndAuthority, hparse, lift_bind (hasScheme_eq text)]
  split
  · next hscheme =>
    obtain ⟨scheme, after, hplain, rfl⟩ := withScheme_iff.mp hscheme
    have hsplit : scheme ++ "://".toList ++ after = scheme ++ [':'] ++ "//".toList ++ after := by
      rw [List.append_assoc scheme [':']]
      rfl
    have hnot : '/' ∉ scheme ++ [':'] := by
      intro hmem
      rcases List.mem_append.mp hmem with hin | hin
      · exact hplain.plain '/' hin (by decide)
      · exact absurd hin (by decide)
    -- The first two slashes are the scheme's own.
    have hslashes : findText "//".toList (scheme ++ "://".toList ++ after) =
        some (byteLen (scheme ++ [':'])) := by
      rw [hsplit]
      exact findText_append hnot
    have hcut : bytesFrom (scheme ++ "://".toList ++ after) (byteLen (scheme ++ [':']) + 2) =
        .ok after := by
      have hfrom := bytesFrom_append (scheme ++ [':'] ++ "//".toList) after
      rw [byteLen_append (scheme ++ [':'])] at hfrom
      rw [hsplit]
      exact hfrom
    rw [hplain.after_slashes, hslashes]
    cases outside.parse (scheme ++ "://".toList ++ after) with
    | none => rfl
    | some url =>
      rw [found_bind, Option.bind_eq_bind, Option.bind_some]
      by_cases hweb : url.scheme ∈ web
      · rw [if_pos ((web_eq _).mpr hweb), if_neg (not_not.mpr hweb), found_bind, lift_bind hcut]
        rfl
      · rw [if_neg fun h => hweb ((web_eq _).mp h), if_pos hweb]
        rfl
  · rw [lift_bind (bareDomain_eq hsolid)]
    split
    · cases outside.parse ("https://".toList ++ text) with
      | none => rfl
      | some url => rfl
    · rfl

/-- What the words name, as the archive has it. -/
def WordsHost.archived (said : WordsHost) : ArchiveBody.WordsHost :=
  ⟨said.host, said.typed, said.userinfo⟩

/-- The two sides read the same name out of the words, or none. -/
theorem wordsHost_eq (hdash : isLetter '-' = false) (halike : WordsAlike outside isLetter words) :
    ArchiveBody.wordsHost outside words =
      found ((wordsHost (browser outside isLetter) words).map WordsHost.archived) := by
  have htext : ((AppMarkdown.trimAddress (AppMarkdown.trim words)).map fun c =>
      if c ∈ ['\u3002', '\uff0e', '\uff61'] then '.' else c) = addressText words := rfl
  -- By the condition no character of the address is a blank on one side only.
  have heven : ∀ c ∈ addressText words, isWhitespace c = isSpace c := by
    intro c hc
    rcases mem_addressText hc with rfl | hin
    · decide
    · exact ReadAlike.not_uneven (halike.space c hin)
  have hblank : (addressText words).any isWhitespace = (addressText words).any isSpace := by
    rw [Bool.eq_iff_iff, List.any_eq_true, List.any_eq_true]
    apply exists_congr
    intro c
    apply and_congr_right
    intro hc
    rw [heven c hc]
  rw [ArchiveBody.wordsHost, wordsHost, trim_eq halike.space,
    lift_bind (ReadAlike.trimAddress_eq _)]
  dsimp only
  rw [htext, hblank]
  -- No blank is left in it from here on, on either side.
  split
  · next hempty => rw [if_pos (by simpa using hempty)]; rfl
  · next hfull =>
    rw [if_neg (by simpa using hfull)]
    have hsolid : ∀ c ∈ addressText words, isWhitespace c = false ∧ isSpace c = false := by
      intro c hc
      have hspace : isSpace c = false := by
        apply Bool.eq_false_iff.mpr
        exact fun h => hfull (Or.inr (List.any_eq_true.mpr ⟨c, hc, h⟩))
      exact ⟨(heven c hc).trans hspace, hspace⟩
    rw [urlAndAuthority_eq isLetter hsolid]
    cases haddress : urlAndAuthority (browser outside isLetter) (addressText words) with
    | none => rfl
    | some pair =>
      -- The same authority is cut on both sides; then the port, the labels and the digits agree.
      obtain ⟨url, authority⟩ := pair
      obtain ⟨hafter, huser⟩ := afterAt_eq authority
      have htyped :
          outside.toLowercase (ArchiveBody.stripPort ((lastIndexOf '@' authority).elim authority
          fun place => authority.drop (place + 1))) =
            typedHost (browser outside isLetter) authority := by
        rw [stripPort_eq, typedHost]
        rfl
      have hlabel :=
        topLabel_eq hdash (halike.letter url authority (urlAndAuthority_iff.mp haddress))
      rw [found_bind, lift_bind hafter, htyped, huser, Option.bind_eq_bind, Option.bind_some,
        stripLast_eq, dottedQuad_eq, host_eq]
      dsimp only
      have hlabels :
          (lastStop.dropEnd (typedHost (browser outside isLetter) authority)).splitOn '.' =
          labels (typedHost (browser outside isLetter) authority) := rfl
      have htop : (labels (typedHost (browser outside isLetter) authority)).getLast?.getD [] =
          top (typedHost (browser outside isLetter) authority) := rfl
      have hletter : (browser outside isLetter).isLetter = isLetter := rfl
      rw [hlabels, htop, hlabel, hletter]
      split
      · rfl
      · by_cases hhost : hostname url = []
        · rw [if_pos hhost, if_pos hhost]
          rfl
        · rw [if_neg hhost, if_neg hhost]
          rfl

theorem bareHost_eq (host : Text) : ArchiveBody.bareHost host = bare host := by
  rw [ArchiveBody.bareHost, bare, stripLast_eq]

theorem sameSite_eq (a b : Text) : ArchiveBody.sameSite a b = sameSite a b := by
  rw [ArchiveBody.sameSite, sameSite, bareHost_eq, bareHost_eq]

/-- What the two sides show beside a link. -/
theorem disguisedHost_eq (hdash : isLetter '-' = false)
    (halike : WordsAlike outside isLetter words) :
    ArchiveBody.disguisedHost outside words href =
      found (disguisedHost (browser outside isLetter) words href) := by
  rw [ArchiveBody.disguisedHost, disguisedHost, webHost_eq, wordsHost_eq hdash halike]
  cases webHost (browser outside isLetter) href with
  | none => rfl
  | some real =>
    rw [found_bind, Option.bind_eq_bind, Option.bind_some]
    cases wordsHost (browser outside isLetter) words with
    | none => rfl
    | some said =>
      obtain ⟨host, typed, userinfo⟩ := said
      rw [Option.map_some, found_bind, Option.bind_eq_bind, Option.bind_some, WordsHost.archived]
      dsimp only
      rw [sameSite_eq]
      split
      · rfl
      · rw [isAscii]
        cases typed.all fun c => ' ' ≤ c && c ≤ '~' with
        | false => rfl
        | true =>
          cases sameSite host real with
          | false => rfl
          | true => rfl

/-- **Both sides unmask the same links.** Where their tables of characters agree on the words, the
archive shows the host that the app shows, and nothing where it shows nothing: beside a link to no
web page, words that read as no address of a place, or words that name the same site, with no
`user@` and in printable ASCII. -/
theorem unmask_together (outside : Outside) (isLetter : Char → Bool) (words href : Text)
    (hdash : isLetter '-' = false)
    (halike : WordsAlike outside isLetter words) :
    (ArchiveBody.disguisedHost outside words href).run =
      .ok (disguisedHost (browser outside isLetter) words href) ∧
    (disguisedHost (browser outside isLetter) words href = none ↔
      (∀ link, ¬WebPage (browser outside isLetter) href link) ∨
      (∀ url authority, ¬Reads (browser outside isLetter) words url authority) ∨
      ∃ link url authority, WebPage (browser outside isLetter) href link ∧
        Reads (browser outside isLetter) words url authority ∧ '@' ∉ authority ∧
        (∀ c ∈ typedHost (browser outside isLetter) authority, ' ' ≤ c ∧ c ≤ '~') ∧
        SameSite (hostname url) (hostname link)) := by
  rw [disguisedHost_eq hdash halike]
  exact ⟨rfl, disguisedHost_none⟩

/-- A parser of `https` addresses, which leaves a space without width out of a host. -/
def hostOnly : Outside where
  parse raw :=
    if "https://".toList.isPrefixOf raw then
      some ⟨"https".toList, raw,
        some (((raw.drop 8).takeWhile (· ∉ ['/', ':'])).filter (· ≠ '\ufeff'))⟩
    else none
  isAlphanumeric := Char.isAlphanum
  isAlphabetic := Char.isAlpha
  toLowercase := List.map Char.toLower

theorem unmask_together_paypal :
    (ArchiveBody.disguisedHost hostOnly "www.paypal.com".toList "https://evil.example".toList).run =
      .ok (some "evil.example".toList) := by
  have hread :
      urlAndAuthority (browser hostOnly Char.isAlpha) (addressText "www.paypal.com".toList) =
      some (⟨"https".toList, "https://www.paypal.com".toList, some "www.paypal.com".toList⟩,
        "www.paypal.com".toList) := by
    decide +kernel
  have halike : WordsAlike hostOnly Char.isAlpha "www.paypal.com".toList := by
    constructor
    · unfold ReadAlike.Uneven
      exact List.all_iff_forall_prop.mp (by decide)
    · intro url authority haddress
      rw [← urlAndAuthority_iff, hread, Option.some.injEq, Prod.mk.injEq] at haddress
      rw [← haddress.2]
      have htop : top (typedHost (browser hostOnly Char.isAlpha) "www.paypal.com".toList) =
          "com".toList := by decide +kernel
      rw [htop]
      exact ⟨List.all_iff_forall_prop.mp (by decide), fun hxn => absurd hxn (by decide)⟩
  have hshown : disguisedHost
      (browser hostOnly Char.isAlpha) "www.paypal.com".toList "https://evil.example".toList =
      some "evil.example".toList := by decide +kernel
  rw [(unmask_together hostOnly Char.isAlpha _ "https://evil.example".toList (by decide) halike).1,
    hshown]

/-- A space without width is none for the archive and ends the app's reading; and a dot at a host's
end is dropped as a leading `www.` is. -/
theorem hidden_space_masks :
    ((ArchiveBody.disguisedHost hostOnly "paypal\ufeff.com".toList
      "https://evil.example".toList).run =
        .ok (some "evil.example".toList) ∧
      disguisedHost (browser hostOnly Char.isAlpha) "paypal\ufeff.com".toList
        "https://evil.example".toList = none) ∧
    (ArchiveBody.disguisedHost hostOnly "https://paypal.com./".toList
      "https://paypal.com/".toList).run = .ok none ∧
    (hostOnly.parse "https://paypal.com./".toList).bind Url.host = some "paypal.com.".toList ∧
    (hostOnly.parse "https://paypal.com/".toList).bind Url.host = some "paypal.com".toList ∧
    "paypal.com.".toList ≠ "paypal.com".toList ∧ ¬".paypal.com".toList <:+ "paypal.com.".toList ∧
    ¬".paypal.com.".toList <:+ "paypal.com".toList := by
  decide +kernel

end Alike

end Linger.LinkHost
