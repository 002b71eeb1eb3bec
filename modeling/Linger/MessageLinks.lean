import Linger.Wire
import Linger.Names

/-! The links in a message's words: every address in it, in order, each once, and no
more than a few. What an address is, is up to the URL parser. -/
namespace Linger.Messages
open Names (isWhitespace)

local instance textLawful : LawfulBEq (List Char) := inferInstance

/-- A message's words. -/
abbrev Body := List Char

/-- A parsed address: `text` is how it is written once normalised. -/
structure Url where
  scheme : List Char
  port : Option ℕ
  host : Option (List Char)
  text : List Char
  deriving DecidableEq, Repr

/-- The most links recorded for one message. -/
def maxLinksPerMessage : ℕ := 4

def startsWith (schemes : List (List Char)) (body : List Char) : Bool :=
  schemes.any fun scheme => scheme.isPrefixOf (body.map Char.toLower)

/-- The next `http://` or `https://`, in any case, and what follows it. -/
def findScheme : List Char → Option (List Char)
  | [] => none
  | c :: cs =>
    if startsWith ["http://".toList, "https://".toList] (c :: cs) then some (c :: cs)
    else findScheme cs

/-- The words of a link read backwards, without the punctuation of the sentence it is in
and a closing bracket it didn't open. -/
def trimTrailing : List Char → List Char
  | [] => []
  | c :: cs =>
    if c ∈ ".,;:!?'\"".toList then trimTrailing cs
    else if c = ')' ∧ (c :: cs).count ')' > (c :: cs).count '(' then trimTrailing cs
    else c :: cs

/-- Four numbers with dots between them. A host that is an IPv6 address stands in
brackets, which is none either. -/
def isIpAddr (host : List Char) : Bool :=
  let parts := host.splitOn '.'
  parts.length = 4 && parts.all fun part =>
    0 < part.length && part.length ≤ 3 && part.all Char.isDigit &&
      (part.length = 1 || part.head? ≠ some '0') &&
      part.foldl (fun n c => 10 * n + (c.toNat - '0'.toNat)) 0 ≤ 255

/-- An address on the default port of a host that has a dot and is no bare number. -/
def parsePublicShape (parse : List Char → Option Url) (raw : List Char) : Option Url :=
  (parse raw).filter fun url =>
    (url.scheme = "http".toList || url.scheme = "https".toList) && url.port.isNone &&
      url.host.any fun host => host ≠ [] && host.contains '.' && !isIpAddr host

/-- Where a link's words end. -/
def endsLink (c : Char) : Bool := isWhitespace c || c = '<' || c = '>' || c = '"'

/-- An address that has been found is kept once. -/
def keepLink (found : List (List Char)) : Option Url → List (List Char)
  | none => found
  | some url => if url.text ∈ found then found else found ++ [url.text]

/-- One turn takes at least a character, so as many turns as there are find them all. -/
def extractFrom (parse : List Char → Option Url) : ℕ → List Char → List (List Char) →
    List (List Char)
  | 0, _, found => found
  | turns + 1, body, found =>
    match findScheme body with
    | none => found
    | some rest =>
      let word := rest.takeWhile fun c => !endsLink c
      let kept := keepLink found (parsePublicShape parse (trimTrailing word.reverse).reverse)
      if kept.length = maxLinksPerMessage then kept
      else extractFrom parse turns (rest.drop (max word.length 1)) kept

def extract (parse : List Char → Option Url) (body : Body) : List (List Char) :=
  extractFrom parse body.length body []

end Linger.Messages
