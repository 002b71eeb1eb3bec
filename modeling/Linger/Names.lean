import Mathlib.Data.List.Chain
import Mathlib.Data.String.Basic

/-! Display names that look the same: the three ways a name is read, and when two names could be
taken for each other. -/
namespace Linger.Names

abbrev Text := List Char

/-- What Unicode's tables give: the NFKC form of a text, its lower case, and the skeleton its
confusables list makes of it. -/
structure Unicode where
  nfkc : Text → Text
  toLowercase : Text → Text
  skeleton : Text → Text

def within (ranges : List (ℕ × ℕ)) (c : Char) : Bool :=
  ranges.any fun range => range.1 ≤ c.toNat && c.toNat ≤ range.2

/-- `char::is_whitespace`. -/
def isWhitespace : Char → Bool :=
  within [(0x9, 0xD), (0x20, 0x20), (0x85, 0x85), (0xA0, 0xA0), (0x1680, 0x1680), (0x2000, 0x200A),
    (0x2028, 0x2029), (0x202F, 0x202F), (0x205F, 0x205F), (0x3000, 0x3000)]

/-- `str::trim`. -/
def trim (text : Text) : Text :=
  ((text.dropWhile isWhitespace).reverse.dropWhile isWhitespace).reverse

/-- `BLANK_LETTERS`: letters that are blank on purpose. -/
def blankLetters : List ℕ := [0x115F, 0x1160, 0x3164, 0xFFA0, 0x2800, 0x1D159]

def isBlankLetter (c : Char) : Bool := blankLetters.contains c.toNat

/-- `draws_nothing`: what is dropped before two names are compared. -/
def drawsNothing : Char → Bool :=
  within [(0xAD, 0xAD), (0x34F, 0x34F), (0x61C, 0x61C), (0x115F, 0x1160), (0x17B4, 0x17B5),
    (0x180B, 0x180F), (0x200B, 0x200F), (0x202A, 0x202E), (0x2060, 0x206F), (0x3164, 0x3164),
    (0xFE00, 0xFE0F), (0xFEFF, 0xFEFF), (0xFFA0, 0xFFA0), (0xFFF0, 0xFFF8), (0x1BCA0, 0x1BCA3),
    (0x1D173, 0x1D17A), (0xE0000, 0xE0FFF)]

/-- One turn of `plain`'s loop: what is written so far, and whether a space is owed before the next
character that shows. -/
def plainStep (held : Text × Bool) (c : Char) : Text × Bool :=
  if isWhitespace c || isBlankLetter c then (held.1, !held.1.isEmpty)
  else if drawsNothing c then held
  else if held.2 then (held.1 ++ [' ', c], false)
  else (held.1 ++ [c], false)

def plain (unicode : Unicode) (name : Text) : Text :=
  ((unicode.nfkc name).foldl plainStep ([], false)).1

/-- The three ways a name is read. -/
structure Shapes where
  asWritten : Text
  lower : Text
  lowered : Text
deriving DecidableEq

def Shapes.of (unicode : Unicode) (name : Text) : Shapes :=
  let plain := plain unicode name
  let asWritten := unicode.skeleton plain
  ⟨asWritten, unicode.skeleton (unicode.toLowercase plain),
    unicode.skeleton (unicode.toLowercase asWritten)⟩

def Shapes.list (shapes : Shapes) : List Text := [shapes.asWritten, shapes.lower, shapes.lowered]

/-- Letters and digits by their codes. -/
theorem alphanum_codes {c : Char} (h : c.isAlphanum = true) :
    (65 ≤ c.toNat ∧ c.toNat ≤ 90 ∨ 97 ≤ c.toNat ∧ c.toNat ≤ 122) ∨ 48 ≤ c.toNat ∧ c.toNat ≤ 57 := by
  change (decide (c.val ≥ 'A'.val ∧ c.val ≤ 'Z'.val) ||
    (decide (c.val ≥ 'a'.val) && decide (c.val ≤ 'z'.val)) ||
      (decide (c.val ≥ '0'.val) && decide (c.val ≤ '9'.val))) = true at h
  simp only [Bool.or_eq_true, Bool.and_eq_true, decide_eq_true_eq, ge_iff_le,
    UInt32.le_iff_toNat_le] at h
  exact h

/-- Whether two names could be taken for each other. -/
def Shapes.meet (shapes other : Shapes) : Bool :=
  shapes.list.any fun shape => other.list.contains shape

theorem Shapes.meet_iff {shapes other : Shapes} :
    shapes.meet other = true ↔ ∃ shape ∈ shapes.list, shape ∈ other.list := by
  simp only [meet, List.any_eq_true, List.contains_iff_mem]

theorem Shapes.meet_comm (shapes other : Shapes) : shapes.meet other = other.meet shapes := by
  rw [Bool.eq_iff_iff, meet_iff, meet_iff]
  constructor
  · intro ⟨shape, hs, ho⟩
    exact ⟨shape, ho, hs⟩
  · intro ⟨shape, ho, hs⟩
    exact ⟨shape, hs, ho⟩

end Linger.Names
