import Linger.ArchiveBody

/-! Where an address ends in a message body as the app reads it. A script's string is a list of its
characters here. -/
namespace Linger.AppMarkdown
open Names (Text within)

/-- `\s`, and what `trim` takes off. -/
def isSpace : Char → Bool :=
  within [(0x9, 0xD), (0x20, 0x20), (0xA0, 0xA0), (0x1680, 0x1680), (0x2000, 0x200A),
    (0x2028, 0x2029), (0x202F, 0x202F), (0x205F, 0x205F), (0x3000, 0x3000), (0xFEFF, 0xFEFF)]

def trim (text : Text) : Text := ((text.dropWhile isSpace).reverse.dropWhile isSpace).reverse

def sentenceMarks : Text := ['.', ',', ';', ':', '!', '?', '\'', '"']

def trimParens : (turns : ℕ) → Text → Text
  | 0, raw => raw
  | turns + 1, raw =>
    if raw.getLast? = some ')' ∧ raw.count '(' < raw.count ')' then trimParens turns raw.dropLast
      else raw

/-- An address without the sentence around it. -/
def trimAddress (found : Text) : Text :=
  let raw := found.rdropWhile (· ∈ sentenceMarks)
  trimParens raw.length raw

end Linger.AppMarkdown
