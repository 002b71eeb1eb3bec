import Mathlib.Data.Bool.AllAny
import Linger.ArchiveNames
import Linger.Trimming

/-! The names files are stored under, and the header they are downloaded with. -/
namespace Linger.FileNames
open Names (Text trim within isWhitespace)
open ArchiveNames (baseOf)
open Trimming

section Code

def MAX_FILENAME_CHARS : ℕ := 200

/-- `char::is_control`. -/
def isControl : Char → Bool := within [(0x0, 0x1F), (0x7F, 0x9F)]

def turnsTextAround : Char → Bool := within [(0x202A, 0x202E), (0x2066, 0x2069)]

def changesDirection (c : Char) : Bool := turnsTextAround c || c ∈ ['\u061C', '\u200E', '\u200F']

def withoutDirectionControls (text : Text) : Text := text.filter fun c => !changesDirection c

def isDot (c : Char) : Bool := c == '.'

/-- The characters that stay in a name. -/
def stays (c : Char) : Bool := !isControl c && !changesDirection c && !(c ∈ ['"', '\\'])

def needsName : String := "That file needs a name, and a shorter one."

def filename (text : Text) : Except String Text :=
  let base := trim (baseOf text)
  let cleaned := base.filter stays
  let cleaned := trim (trimBoth isDot cleaned)
  if cleaned.isEmpty ∨ MAX_FILENAME_CHARS < cleaned.length then .error needsName else .ok cleaned

def asciiOf (name : Text) : Text :=
  name.map fun c => if c.isAlphanum || c ∈ ['.', '-', '_', ' '] then c else '_'

/-- The digits that `X` writes. -/
def hexDigit (digit : ℕ) : Char := "0123456789ABCDEF".toList.getD digit '0'

def encodeByte (byte : UInt8) : Text :=
  let c := Char.ofNat byte.toNat
  if c.isAlphanum || c ∈ ['.', '-', '_'] then [c]
  else ['%', hexDigit (byte.toNat / 16), hexDigit (byte.toNat % 16)]

def bytesOf (text : Text) : List UInt8 := text.flatMap String.utf8EncodeChar

def encodedOf (name : Text) : Text := (bytesOf name).flatMap encodeByte

def contentDisposition (inline : Bool) (filename : Text) : Text :=
  let kind := (if inline then "inline" else "attachment").toList
  let filename := withoutDirectionControls filename
  kind ++ "; filename=\"".toList ++ asciiOf filename ++ "\"; filename*=UTF-8''".toList ++
    encodedOf filename

end Code

section Purpose

/-- A name that is safe to store, and that a second look leaves as it is. -/
structure Clean (name : Text) : Prop where
  named : name ≠ []
  short : name.length ≤ MAX_FILENAME_CHARS
  plain : ∀ c ∈ name, c ≠ '/' ∧ c ≠ '\\' ∧ c ≠ '"' ∧ isControl c = false ∧
    changesDirection c = false
  begins : ∀ c ∈ name.head?, c ≠ '.' ∧ isWhitespace c = false
  ends : ∀ c ∈ name.getLast?, c ≠ '.' ∧ isWhitespace c = false
  again : filename name = .ok name

def hexValue (c : Char) : Option ℕ := ("0123456789ABCDEF".toList.findIdx? (· == c.toUpper))

def percentDecode : Text → List UInt8
  | [] => []
  | '%' :: high :: low :: rest =>
    match hexValue high, hexValue low with
    | some h, some l => UInt8.ofNat (16 * h + l) :: percentDecode rest
    | _, _ => String.utf8EncodeChar '%' ++ percentDecode (high :: low :: rest)
  | c :: rest => String.utf8EncodeChar c ++ percentDecode rest

/-- A header of one line: a name between two quotes, and the name itself once more, as the bytes of
its UTF-8. -/
structure OneLine (header name : Text) : Prop where
  line : ∀ c ∈ header, ' ' ≤ c ∧ c ≤ '~'
  parts : ∃ kind quoted encoded : Text, header = kind ++ "; filename=\"".toList ++ quoted ++
    "\"; filename*=UTF-8''".toList ++ encoded ∧ (∀ c ∈ kind, c ≠ '"') ∧
      (∀ c ∈ quoted, c ≠ '"' ∧ c ≠ '\\') ∧
      percentDecode encoded = bytesOf (withoutDirectionControls name)

/-- What is at the end of a name that may have to go. -/
def isEdge (c : Char) : Bool := isDot c || isWhitespace c

/-- No dot of those a text begins with is behind white space. -/
def BeginsTidy (text : Text) : Prop := '.' ∉ (text.takeWhile isEdge).dropWhile isDot

/-- What is behind the last separator, trimmed, without the characters that don't stay: no dot of
those it begins with is behind white space, and none of those it ends with before any. -/
def Tidy (text : Text) : Prop :=
  BeginsTidy ((trim (baseOf text)).filter stays) ∧
    BeginsTidy ((trim (baseOf text)).filter stays).reverse

end Purpose

section Edges
variable {text : Text} {c : Char}

theorem trim_eq (text : Text) : trim text = trimBoth isWhitespace text := rfl

theorem dot_not_white (h : isWhitespace c = true) : isDot c = false := by
  cases hdot : isDot c with
  | false => rfl
  | true =>
    rw [eq_of_beq hdot] at h
    exact absurd h (by decide)

/-- Dots go once and white space after them: a dot is left in front where one stood behind white
space. -/
theorem head_dot_iff (hne : trim (trimBoth isDot text) ≠ []) :
    (∃ c ∈ (trim (trimBoth isDot text)).head?, c = '.') ↔ ¬BeginsTidy text := by
  obtain ⟨dots, dotsAfter, hdots, hdot, -⟩ := trimBoth_split isDot text
  obtain ⟨white, whiteAfter, hwhite, hblank, -⟩ := trimBoth_split isWhitespace (trimBoth isDot text)
  rw [← trim_eq] at hwhite
  obtain ⟨c, rest, hrest⟩ := List.exists_cons_of_ne_nil hne
  have hc : isWhitespace c = false := by
    apply trimBoth_head (l := trimBoth isDot text)
    rw [← trim_eq, hrest]
    rfl
  obtain ⟨tail, htail⟩ : ∃ tail, text = dots ++ (white ++ c :: tail) := by
    refine ⟨rest ++ whiteAfter ++ dotsAfter, ?_⟩
    rw [hdots, hwhite, hrest]
    simp
  have hedges : text.takeWhile isEdge = dots ++ (white ++ (c :: tail).takeWhile isEdge) := by
    have hdotEdge : ∀ x ∈ dots, isEdge x = true := fun x hx => by simp [isEdge, hdot x hx]
    have hwhiteEdge : ∀ x ∈ white, isEdge x = true := fun x hx => by simp [isEdge, hblank x hx]
    rw [htail, List.takeWhile_append_of_pos hdotEdge, List.takeWhile_append_of_pos hwhiteEdge]
  have hother : c ≠ '.' → (c :: tail).takeWhile isEdge = [] := by
    intro hne
    have hdot : isDot c = false := beq_false_of_ne hne
    simp [isEdge, hdot, hc]
  have hleft : (∃ x ∈ (trim (trimBoth isDot text)).head?, x = '.') ↔ c = '.' := by
    rw [hrest]
    simp
  rw [hleft, BeginsTidy, not_not, hedges, List.dropWhile_append_of_pos hdot]
  cases white with
  | nil =>
    have hfirst : c ≠ '.' := by
      have hhead : isDot c = false := by
        apply trimBoth_head (l := text)
        rw [hwhite, hrest]
        rfl
      rintro rfl
      cases hhead
    rw [List.nil_append, hother hfirst]
    exact iff_of_false hfirst (by simp)
  | cons w white =>
    have hw : isDot w = false := dot_not_white (hblank w List.mem_cons_self)
    have hnot : '.' ∉ w :: white := by
      intro hmem
      have hwhite := hblank '.' hmem
      exact absurd hwhite (by decide)
    rw [List.cons_append, List.dropWhile_cons_of_neg (by simp [hw]), ← List.cons_append,
      List.mem_append, or_iff_right hnot]
    constructor
    · rintro rfl
      exact List.mem_cons_self
    · intro hmem
      by_contra hfirst
      rw [hother hfirst] at hmem
      cases hmem

end Edges

section Stored
variable {text name stored : Text} {c : Char}

theorem filename_ok (h : filename text = .ok name) :
    name = trim (trimBoth isDot ((trim (baseOf text)).filter stays)) ∧ name ≠ [] ∧
      name.length ≤ MAX_FILENAME_CHARS := by
  rw [filename] at h
  split_ifs at h with hrefused
  obtain rfl := Except.ok.inj h
  obtain ⟨hne, hshort⟩ := not_or.mp hrefused
  exact ⟨rfl, by simpa using hne, not_lt.mp hshort⟩

theorem baseOf_plain (h : c ∈ baseOf text) : c ≠ '/' ∧ c ≠ '\\' := by
  rw [baseOf, List.mem_reverse] at h
  have hplain := List.mem_takeWhile_imp h
  simpa using hplain

theorem baseOf_self (h : ∀ c ∈ text, c ≠ '/' ∧ c ≠ '\\') : baseOf text = text := by
  have hall : text.reverse.takeWhile (fun c => c ≠ '/' && c ≠ '\\') = text.reverse := by
    rw [List.takeWhile_eq_self_iff]
    intro c hc
    simpa using h c (List.mem_reverse.mp hc)
  rw [baseOf, hall, List.reverse_reverse]

theorem filename_plain (h : filename text = .ok name) (hc : c ∈ name) :
    c ≠ '/' ∧ c ≠ '\\' ∧ c ≠ '"' ∧ isControl c = false ∧ changesDirection c = false := by
  obtain ⟨rfl, -⟩ := filename_ok h
  have hkept := mem_of_mem_trimBoth (mem_of_mem_trimBoth hc)
  obtain ⟨hbase, hstays⟩ := List.mem_filter.mp hkept
  have hplain := baseOf_plain (mem_of_mem_trimBoth hbase)
  simp only [stays, Bool.and_eq_true, Bool.not_eq_true', decide_eq_false_iff_not, List.mem_cons,
    List.not_mem_nil, or_false, not_or] at hstays
  exact ⟨hplain.1, hplain.2, hstays.2.1, hstays.1.1, hstays.1.2⟩

/-- Backwards, a name is trimmed to the same, backwards. -/
theorem cleaned_reverse (text : Text) :
    trim (trimBoth isDot text.reverse) = (trim (trimBoth isDot text)).reverse := by
  rw [trimBoth_reverse, trim_eq, trimBoth_reverse, ← trim_eq]

/-- A name that has nothing to lose is left as it is. -/
theorem filename_again (hne : name ≠ []) (hshort : name.length ≤ MAX_FILENAME_CHARS)
    (hplain : ∀ c ∈ name, c ≠ '/' ∧ c ≠ '\\' ∧ c ≠ '"' ∧ isControl c = false ∧
      changesDirection c = false)
    (hbegins : ∀ c ∈ name.head?, c ≠ '.' ∧ isWhitespace c = false)
    (hends : ∀ c ∈ name.getLast?, c ≠ '.' ∧ isWhitespace c = false) : filename name = .ok name := by
  have hbase : baseOf name = name := baseOf_self fun c hc => ⟨(hplain c hc).1, (hplain c hc).2.1⟩
  have htrim : trim name = name :=
    trimBoth_eq_self_iff.mpr ⟨fun c hc => (hbegins c hc).2, fun c hc => (hends c hc).2⟩
  have hdots : trimBoth isDot name = name :=
    trimBoth_eq_self_iff.mpr ⟨fun c hc => beq_false_of_ne (hbegins c hc).1,
      fun c hc => beq_false_of_ne (hends c hc).1⟩
  have hstays : name.filter stays = name := by
    rw [List.filter_eq_self]
    intro c hc
    obtain ⟨-, hbackslash, hquote, hcontrol, hdirection⟩ := hplain c hc
    simp [stays, hbackslash, hquote, hcontrol, hdirection]
  have hnamed : ¬(name.isEmpty ∨ MAX_FILENAME_CHARS < name.length) := by
    rw [not_or, not_lt]
    exact ⟨by simpa using hne, hshort⟩
  dsimp only [filename]
  rw [hbase, htrim, hstays, hdots, htrim, if_neg hnamed]

theorem clean_iff (h : filename text = .ok name) : Clean name ↔ Tidy text := by
  obtain ⟨hname, hne, hshort⟩ := filename_ok h
  have hfrontNe : trim (trimBoth isDot ((trim (baseOf text)).filter stays)) ≠ [] := hname ▸ hne
  have hbackNe : trim (trimBoth isDot ((trim (baseOf text)).filter stays).reverse) ≠ [] := by
    rw [cleaned_reverse, ← hname]
    simpa using hne
  have hfront := head_dot_iff hfrontNe
  have hback := head_dot_iff hbackNe
  rw [← hname] at hfront
  rw [cleaned_reverse, ← hname, List.head?_reverse] at hback
  constructor
  · intro hclean
    constructor
    · by_contra hnot
      obtain ⟨c, hc, hdot⟩ := hfront.mpr hnot
      exact (hclean.begins c hc).1 hdot
    · by_contra hnot
      obtain ⟨c, hc, hdot⟩ := hback.mpr hnot
      exact (hclean.ends c hc).1 hdot
  · rintro ⟨hbegins, hends⟩
    have hplain : ∀ c ∈ name, c ≠ '/' ∧ c ≠ '\\' ∧ c ≠ '"' ∧ isControl c = false ∧
        changesDirection c = false :=
      fun c hc => filename_plain h hc
    have hhead : ∀ c ∈ name.head?, c ≠ '.' ∧ isWhitespace c = false := by
      intro c hc
      refine ⟨fun hdot => hfront.mp ⟨c, hc, hdot⟩ hbegins, ?_⟩
      rw [hname, trim_eq] at hc
      exact trimBoth_head hc
    have hlast : ∀ c ∈ name.getLast?, c ≠ '.' ∧ isWhitespace c = false := by
      intro c hc
      refine ⟨fun hdot => hback.mp ⟨c, hc, hdot⟩ hends, ?_⟩
      rw [hname, trim_eq] at hc
      exact trimBoth_last hc
    exact ⟨hne, hshort, hplain, hhead, hlast, filename_again hne hshort hplain hhead hlast⟩

end Stored

section Header
variable {name : Text} {c : Char}

theorem plain_bytes :
    ∀ byte < 256, ((Char.ofNat byte).isAlphanum || Char.ofNat byte ∈ ['.', '-', '_']) = true →
    String.utf8EncodeChar (Char.ofNat byte) = [UInt8.ofNat byte] := by
  decide +kernel

/-- What percent-encoding makes of a byte. -/
theorem encodeByte_cases (byte : UInt8) :
    (∃ c, encodeByte byte = [c] ∧ (c.isAlphanum ∨ c ∈ ['.', '-', '_']) ∧
      String.utf8EncodeChar c = [byte]) ∨
      ∃ high low, encodeByte byte = ['%', hexDigit high, hexDigit low] ∧ high < 16 ∧ low < 16 ∧
        UInt8.ofNat (16 * high + low) = byte := by
  rw [encodeByte]
  split_ifs with hplain
  · left
    refine ⟨Char.ofNat byte.toNat, rfl, by simpa using hplain, ?_⟩
    rw [plain_bytes byte.toNat byte.toNat_lt (by simpa using hplain), UInt8.ofNat_toNat]
  · right
    have hlt := byte.toNat_lt
    refine ⟨byte.toNat / 16, byte.toNat % 16, rfl, by omega, by omega, ?_⟩
    rw [Nat.div_add_mod]
    exact UInt8.ofNat_toNat

theorem percentDecode_plain (hc : c ≠ '%') (rest : Text) :
    percentDecode (c :: rest) = String.utf8EncodeChar c ++ percentDecode rest := by
  rw [percentDecode]
  rintro high low tail rfl
  exact absurd rfl hc

theorem hexValue_hexDigit : ∀ digit < 16, hexValue (hexDigit digit) = some digit := by decide

/-- What was encoded is read back. -/
theorem percentDecode_encode (bytes : List UInt8) :
    percentDecode (bytes.flatMap encodeByte) = bytes := by
  induction bytes with
  | nil => rfl
  | cons byte bytes ih =>
    rw [List.flatMap_cons]
    rcases encodeByte_cases byte with
      ⟨c, hc, hplain, hbyte⟩ | ⟨high, low, hcode, hhigh, hlow, hbyte⟩
    · have hpercent : c ≠ '%' := by
        rintro rfl
        revert hplain
        decide
      rw [hc, List.singleton_append, percentDecode_plain hpercent, hbyte, ih]
      rfl
    · rw [hcode, List.cons_append, List.cons_append, List.singleton_append, percentDecode]
      simp only [hexValue_hexDigit high hhigh, hexValue_hexDigit low hlow]
      rw [hbyte, ih]

/-- A character that is safe in a header. -/
theorem shown_of_plain (hc : c.isAlphanum = true) : ' ' ≤ c ∧ c ≤ '~' := by
  have hcodes := Names.alphanum_codes hc
  change ' '.toNat ≤ c.toNat ∧ c.toNat ≤ '~'.toNat
  have hspace : ' '.toNat = 32 := rfl
  have htilde : '~'.toNat = 126 := rfl
  omega

theorem shown_hex : ∀ digit < 16, ' ' ≤ hexDigit digit ∧ hexDigit digit ≤ '~' := by decide

theorem shown_mark : ∀ c ∈ ['.', '-', '_', ' '], (' ' ≤ c ∧ c ≤ '~') ∧ c ≠ '"' ∧ c ≠ '\\' :=
  List.all_iff_forall_prop.mp (by decide)

theorem asciiOf_plain (hc : c ∈ asciiOf name) : (' ' ≤ c ∧ c ≤ '~') ∧ c ≠ '"' ∧ c ≠ '\\' := by
  obtain ⟨written, -, rfl⟩ := List.mem_map.mp hc
  split_ifs with hplain
  · have hcases :
        written.isAlphanum = true ∨ written ∈ ['.', '-', '_', ' '] := by simpa using hplain
    rcases hcases with hletter | hmark
    · refine ⟨shown_of_plain hletter, ?_, ?_⟩
      · rintro rfl
        exact absurd hletter (by decide)
      · rintro rfl
        exact absurd hletter (by decide)
    · exact shown_mark written hmark
  · decide

theorem encodedOf_shown (hc : c ∈ encodedOf name) : ' ' ≤ c ∧ c ≤ '~' := by
  obtain ⟨byte, -, hmem⟩ := List.mem_flatMap.mp hc
  rcases encodeByte_cases byte with ⟨plain, hcode, hplain, -⟩ | ⟨high, low, hcode, hhigh, hlow, -⟩
  · rw [hcode, List.mem_singleton] at hmem
    subst hmem
    rcases hplain with hletter | hmark
    · exact shown_of_plain hletter
    · exact (shown_mark c (List.mem_append_left [' '] hmark)).1
  · rw [hcode] at hmem
    rcases List.mem_cons.mp hmem with rfl | hmem
    · decide
    rcases List.mem_cons.mp hmem with rfl | hmem
    · exact shown_hex high hhigh
    · rw [List.mem_singleton.mp hmem]
      exact shown_hex low hlow

theorem contentDisposition_oneLine (inline : Bool) (name : Text) :
    OneLine (contentDisposition inline name) name := by
  have hkind : ∀ c ∈ (if inline then "inline" else "attachment").toList, (' ' ≤ c ∧ c ≤ '~') ∧
      c ≠ '"' := by
    cases inline with
    | false => exact List.all_iff_forall_prop.mp (by decide)
    | true => exact List.all_iff_forall_prop.mp (by decide)
  have hopens : ∀ c ∈ "; filename=\"".toList, ' ' ≤ c ∧ c ≤ '~' :=
    List.all_iff_forall_prop.mp (by decide)
  have hcloses : ∀ c ∈ "\"; filename*=UTF-8''".toList, ' ' ≤ c ∧ c ≤ '~' :=
    List.all_iff_forall_prop.mp (by decide)
  constructor
  · intro c hc
    simp only [contentDisposition, List.mem_append] at hc
    rcases hc with (((hc | hc) | hc) | hc) | hc
    · exact (hkind c hc).1
    · exact hopens c hc
    · exact (asciiOf_plain hc).1
    · exact hcloses c hc
    · exact encodedOf_shown hc
  · exact ⟨_, _, _, rfl, fun c hc => (hkind c hc).2, fun c hc => (asciiOf_plain hc).2,
      percentDecode_encode _⟩

end Header

/-- A name that is accepted is clean, and stays so, exactly where no dot at its ends has white space
to hide behind; and every name, clean or not, goes into a header of one line that says it whole. -/
theorem stored_name_iff {text name : Text} (stored : Text) (inline : Bool)
    (h : filename text = .ok name) :
    (Clean name ∧ OneLine (contentDisposition inline stored) stored) ↔ Tidy text := by
  rw [and_iff_left (contentDisposition_oneLine inline stored)]
  exact clean_iff h

theorem stored_name_hidden :
    (Clean "hidden".toList ∧ OneLine (contentDisposition true "hidden".toList) "hidden".toList) ↔
      Tidy "../.hidden".toList := by
  have haccepted : filename "../.hidden".toList = .ok "hidden".toList := by decide
  exact stored_name_iff "hidden".toList true haccepted

/-- Two dots, between dots and spaces. -/
theorem dots_behind_spaces : filename ". .. .".toList = .ok "..".toList ∧ ¬Clean "..".toList := by
  refine ⟨by decide, ?_⟩
  intro hclean
  exact (hclean.begins '.' rfl).1 rfl

end Linger.FileNames
