import Mathlib.Data.List.Infix
import Mathlib.Tactic.Common

/-! Markup as a list of tags and characters: how it is written and read, when its tags are well
nested, and what of its text shows. -/
namespace Markup

abbrev Attributes := List (List Char × List Char)

inductive Token
  | opens (name : List Char) (attributes : Attributes)
  | closes (name : List Char)
  | char (c : Char)
deriving DecidableEq

section Writing

/-- A character as text and values hold it. -/
def escapeChar : Char → List Char
  | '&' => "&amp;".toList
  | '<' => "&lt;".toList
  | '>' => "&gt;".toList
  | '"' => "&quot;".toList
  | '\'' => "&#39;".toList
  | c => [c]

def escape (text : List Char) : List Char := text.flatMap escapeChar

def writeAttribute (field : List Char × List Char) : List Char :=
  ' ' :: field.1 ++ '=' :: '"' :: escape field.2 ++ ['"']

def Token.write : Token → List Char
  | .opens name attributes => '<' :: name ++ attributes.flatMap writeAttribute ++ ['>']
  | .closes name => '<' :: '/' :: name ++ ['>']
  | .char c => escapeChar c

def write (tokens : List Token) : List Char := tokens.flatMap Token.write

@[simp] theorem write_nil : write [] = [] := rfl

@[simp] theorem write_cons (token : Token) (tokens : List Token) :
    write (token :: tokens) = token.write ++ write tokens := List.flatMap_cons

@[simp] theorem write_append (tokens others : List Token) :
    write (tokens ++ others) = write tokens ++ write others := List.flatMap_append

theorem write_text (text : List Char) : write (text.map Token.char) = escape text := by
  rw [write, List.flatMap_map]
  rfl

theorem escape_cons (c : Char) (text : List Char) :
    escape (c :: text) = escapeChar c ++ escape text :=
  List.flatMap_cons

theorem escape_append (text more : List Char) :
    escape (text ++ more) = escape text ++ escape more :=
  List.flatMap_append

/-- Characters with a meaning of their own in markup. -/
def marks : List Char := ['&', '<', '>', '"', '\'']

/-- Each mark's reference. -/
theorem escapeChar_marks : escapeChar '&' = "&amp;".toList ∧ escapeChar '<' = "&lt;".toList ∧
    escapeChar '>' = "&gt;".toList ∧ escapeChar '"' = "&quot;".toList ∧
    escapeChar '\'' = "&#39;".toList :=
  ⟨rfl, rfl, rfl, rfl, rfl⟩

theorem escapeChar_of_not_mem {c : Char} (h : c ∉ marks) : escapeChar c = [c] := by
  simp only [marks, List.mem_cons, List.not_mem_nil, or_false, not_or] at h
  unfold escapeChar
  split <;> simp_all

theorem escape_of_not_mem {text : List Char} (h : ∀ c ∈ text, c ∉ marks) : escape text = text := by
  induction text with
  | nil => rfl
  | cons c text ih =>
    have hc := escapeChar_of_not_mem (h c List.mem_cons_self)
    have htext := ih fun d hd => h d (List.mem_cons_of_mem c hd)
    rw [escape_cons, hc, htext, List.singleton_append]

/-- A character is either one of the marks, each of which has its reference, or stands for
itself. -/
theorem escapeChar_cases (c : Char) :
    (c = '&' ∨ c = '<' ∨ c = '>' ∨ c = '"' ∨ c = '\'') ∨ (c ∉ marks ∧ escapeChar c = [c]) := by
  by_cases hc : c ∈ marks
  · exact Or.inl (by simpa [marks] using hc)
  · exact Or.inr ⟨hc, escapeChar_of_not_mem hc⟩

/-- What is escaped holds no quote and no angle bracket. -/
theorem escape_quiet {text : List Char} : ∀ c ∈ escape text, c ∉ ['<', '>', '"', '\''] := by
  intro c hc
  obtain ⟨d, -, hd⟩ := List.mem_flatMap.mp hc
  rcases escapeChar_cases d with hmark | ⟨hplain, hself⟩
  · have hreferences : ∀ mark ∈ marks, ∀ e ∈ escapeChar mark, e ∉ ['<', '>', '"', '\''] := by
      simp [marks, escapeChar_marks]
    exact hreferences d (by simpa [marks] using hmark) c hd
  · rw [hself, List.mem_singleton] at hd
    rw [hd]
    exact fun hbad => hplain (List.mem_cons_of_mem '&' hbad)

end Writing

section Reading

/-- Where a reader is. -/
inductive Place
  | text
  | entity (typed : List Char)
  | tag
  | closing (name : List Char)
  | opening (name : List Char)
  | gap (name : List Char) (attributes : Attributes)
  | field (name : List Char) (attributes : Attributes) (typed : List Char)
  | equals (name : List Char) (attributes : Attributes) (field : List Char)
  | value (name : List Char) (attributes : Attributes) (field typed : List Char)
  | reference (name : List Char) (attributes : Attributes) (field typed entity : List Char)
  | quoted (name : List Char) (attributes : Attributes)

def entityOf (typed : List Char) : Option Char :=
  marks.find? fun c => escapeChar c = '&' :: typed ++ [';']

/-- One character read: what it ends, and where it leaves the reader. A quote or an angle bracket
where none belongs is refused. -/
def readChar : Place → Char → Option (List Token × Place)
  | .text, c =>
    if c = '<' then some ([], .tag) else if c = '&' then some ([], .entity [])
    else if c ∈ marks then none else some ([.char c], .text)
  | .entity typed, c =>
    if c = ';' then (entityOf typed).map fun d => ([.char d], .text)
      else some ([], .entity (typed ++ [c]))
  | .tag, c =>
    if c = '/' then some ([], .closing []) else if c.isAlphanum then some ([], .opening [c])
      else none
  | .closing name, c =>
    if c = '>' then some ([.closes name], .text)
    else if c.isAlphanum then some ([], .closing (name ++ [c])) else none
  | .opening name, c =>
    if c = '>' then some ([.opens name []], .text) else if c = ' ' then some ([], .gap name [])
    else if c.isAlphanum then some ([], .opening (name ++ [c])) else none
  | .gap name attributes, c => if c.isAlphanum then some ([], .field name attributes [c]) else none
  | .field name attributes typed, c =>
    if c = '=' then some ([], .equals name attributes typed)
    else if c.isAlphanum then some ([], .field name attributes (typed ++ [c])) else none
  | .equals name attributes field, c =>
    if c = '"' then some ([], .value name attributes field []) else none
  | .value name attributes field typed, c =>
    if c = '"' then some ([], .quoted name (attributes ++ [(field, typed)]))
    else if c = '&' then some ([], .reference name attributes field typed [])
    else if c ∈ marks then none else some ([], .value name attributes field (typed ++ [c]))
  | .reference name attributes field typed entity, c =>
    if c = ';' then (entityOf entity).map fun d => ([], .value name attributes field (typed ++ [d]))
    else some ([], .reference name attributes field typed (entity ++ [c]))
  | .quoted name attributes, c =>
    if c = '>' then some ([.opens name attributes], .text)
    else if c = ' ' then some ([], .gap name attributes) else none

def readFrom : Place → List Char → Option (List Token)
  | .text, [] => some []
  | _, [] => none
  | place, c :: rest => (readChar place c).bind fun (out, next) =>
    (readFrom next rest).map (out ++ ·)

def read (html : List Char) : Option (List Token) := readFrom .text html

/-- A name that can stand in a tag. -/
def Named (name : List Char) : Prop := name ≠ [] ∧ ∀ c ∈ name, c.isAlphanum = true

instance (name : List Char) : Decidable (Named name) := inferInstanceAs (Decidable (_ ∧ _))

def Token.Named : Token → Prop
  | .opens name attributes => Markup.Named name ∧ ∀ field ∈ attributes, Markup.Named field.1
  | .closes name => Markup.Named name
  | .char _ => True

variable {name : List Char} {attributes : Attributes} {field typed rest : List Char}
  {place next : Place}
  {c : Char}

theorem readFrom_cons (place : Place) (c : Char) (rest : List Char) :
    readFrom place (c :: rest) =
      (readChar place c).bind fun read => (readFrom read.2 rest).map (read.1 ++ ·) := by
  cases place <;> rfl

/-- A character that ends nothing only takes the reader on. -/
theorem readFrom_on (h : readChar place c = some ([], next)) :
    readFrom place (c :: rest) = readFrom next rest := by
  rw [readFrom_cons, h]
  simp

theorem readFrom_out {token : Token} (h : readChar place c = some ([token], next)) :
    readFrom place (c :: rest) = (readFrom next rest).map (token :: ·) := by
  rw [readFrom_cons, h]
  simp

theorem isAlphanum_ne {d : Char} (hc : c.isAlphanum = true) (hd : d.isAlphanum = false) :
    c ≠ d := by
  intro h
  rw [h, hd] at hc
  exact Bool.noConfusion hc

/-- A mark's reference is its letters between an ampersand and a semicolon. -/
theorem escapeChar_reference (h : c = '&' ∨ c = '<' ∨ c = '>' ∨ c = '"' ∨ c = '\'') :
    ∃ letters, escapeChar c = '&' :: letters ++ [';'] ∧ ';' ∉ letters ∧
      entityOf letters = some c := by
  rcases h with rfl | rfl | rfl | rfl | rfl
  · exact ⟨"amp".toList, rfl, by decide, rfl⟩
  · exact ⟨"lt".toList, rfl, by decide, rfl⟩
  · exact ⟨"gt".toList, rfl, by decide, rfl⟩
  · exact ⟨"quot".toList, rfl, by decide, rfl⟩
  · exact ⟨"#39".toList, rfl, by decide, rfl⟩

theorem readFrom_entity {letters : List Char} (hletters : ';' ∉ letters)
    (hc : entityOf (typed ++ letters) = some c) :
    readFrom (.entity typed) (letters ++ ';' :: rest) =
      (readFrom .text rest).map (Token.char c :: ·) := by
  induction letters generalizing typed with
  | nil =>
    rw [List.append_nil] at hc
    apply readFrom_out
    rw [readChar, if_pos rfl, hc, Option.map_some]
  | cons d letters ih =>
    obtain ⟨hd, hmore⟩ := List.ne_and_not_mem_of_not_mem_cons hletters
    have hon : readChar (.entity typed) d = some ([], .entity (typed ++ [d])) := by
      rw [readChar, if_neg hd.symm]
    rw [List.cons_append, readFrom_on hon]
    exact ih hmore (by rwa [List.append_assoc, List.singleton_append])

theorem readFrom_reference {letters entity : List Char} (hletters : ';' ∉ letters)
    (hc : entityOf (entity ++ letters) = some c) :
    readFrom (.reference name attributes field typed entity) (letters ++ ';' :: rest) =
      readFrom (.value name attributes field (typed ++ [c])) rest := by
  induction letters generalizing entity with
  | nil =>
    rw [List.append_nil] at hc
    apply readFrom_on
    rw [readChar, if_pos rfl, hc, Option.map_some]
  | cons d letters ih =>
    obtain ⟨hd, hmore⟩ := List.ne_and_not_mem_of_not_mem_cons hletters
    have hon : readChar (.reference name attributes field typed entity) d =
        some ([], .reference name attributes field typed (entity ++ [d])) := by
          rw [readChar, if_neg hd.symm]
    rw [List.cons_append, readFrom_on hon]
    exact ih hmore (by rwa [List.append_assoc, List.singleton_append])

/-- An escaped character in text. -/
theorem readFrom_escapeChar (c : Char) (rest : List Char) :
    readFrom .text (escapeChar c ++ rest) = (readFrom .text rest).map (Token.char c :: ·) := by
  rcases escapeChar_cases c with hmark | ⟨hplain, hself⟩
  · obtain ⟨letters, hescape, hletters, hentity⟩ := escapeChar_reference hmark
    have hon : readChar .text '&' = some ([], .entity []) := rfl
    rw [hescape, List.append_assoc, List.cons_append, readFrom_on hon]
    exact readFrom_entity hletters hentity
  · have hne : c ≠ '<' ∧ c ≠
        '&' := by simp only [marks, List.mem_cons, not_or] at hplain; exact ⟨hplain.2.1, hplain.1⟩
    rw [hself, List.singleton_append]
    apply readFrom_out
    rw [readChar, if_neg hne.1, if_neg hne.2, if_neg hplain]

/-- The same in a value. -/
theorem readFrom_value_escapeChar (c : Char) (rest : List Char) :
    readFrom (.value name attributes field typed) (escapeChar c ++ rest) =
      readFrom (.value name attributes field (typed ++ [c])) rest := by
  rcases escapeChar_cases c with hmark | ⟨hplain, hself⟩
  · obtain ⟨letters, hescape, hletters, hentity⟩ := escapeChar_reference hmark
    have hon : readChar (.value name attributes field typed) '&' =
        some ([], .reference name attributes field typed []) := rfl
    rw [hescape, List.append_assoc, List.cons_append, readFrom_on hon]
    exact readFrom_reference hletters hentity
  · have hne : c ≠ '"' ∧ c ≠ '&' := by
      simp only [marks, List.mem_cons, not_or] at hplain
      exact ⟨hplain.2.2.2.1, hplain.1⟩
    rw [hself, List.singleton_append]
    apply readFrom_on
    rw [readChar, if_neg hne.1, if_neg hne.2, if_neg hplain]

theorem readFrom_value (value : List Char) :
    readFrom (.value name attributes field typed) (escape value ++ rest) =
      readFrom (.value name attributes field (typed ++ value)) rest := by
  induction value generalizing typed with
  | nil => rw [List.append_nil]; rfl
  | cons c value ih =>
    rw [escape_cons, List.append_assoc, readFrom_value_escapeChar, ih, List.append_assoc,
      List.singleton_append]

/-- A name, read where the reader stays as it is but for what it has read of the name. -/
theorem readFrom_name (stands : List Char → Place)
    (h : ∀ typed c, c.isAlphanum = true →
      readChar (stands typed) c = some ([], stands (typed ++ [c])))
    (hname : ∀ c ∈ name, c.isAlphanum = true) :
    readFrom (stands typed) (name ++ rest) = readFrom (stands (typed ++ name)) rest := by
  induction name generalizing typed with
  | nil => rw [List.append_nil, List.nil_append]
  | cons c name ih =>
    have hc := h typed c (hname c List.mem_cons_self)
    have hrest := fun d hd => hname d (List.mem_cons_of_mem c hd)
    rw [List.cons_append, readFrom_on hc, ih hrest, List.append_assoc, List.singleton_append]

theorem readChar_tag : readChar .text '<' = some ([], .tag) := rfl

theorem readFrom_closing (hname : Named name) :
    readFrom .text ((Token.closes name).write ++ rest) =
      (readFrom .text rest).map (Token.closes name :: ·) := by
  have hread := @readFrom_name name [] ('>' :: rest) Place.closing
    (fun typed c hc => by rw [readChar, if_neg (isAlphanum_ne hc (by decide)), if_pos hc]) hname.2
  have hwritten : (Token.closes name).write ++ rest = '<' :: '/' :: (name ++ '>' :: rest) := by
    simp [Token.write]
  have hslash : readChar .tag '/' = some ([], .closing []) := rfl
  rw [hwritten, readFrom_on readChar_tag, readFrom_on hslash, hread]
  exact readFrom_out rfl

/-- The places from which an attribute may follow, or the tag may end. -/
def Open (name : List Char) (attributes : Attributes) (place : Place) : Prop :=
  readChar place ' ' = some ([], .gap name attributes) ∧
    readChar place '>' = some ([.opens name attributes], .text)

theorem readFrom_attribute (hplace : Open name attributes place) (hnamed : Named field)
    (value : List Char) :
    readFrom place (writeAttribute (field, value) ++ rest) =
      readFrom (.quoted name (attributes ++ [(field, value)])) rest := by
  obtain ⟨first, more, rfl⟩ := List.exists_cons_of_ne_nil hnamed.1
  have hfirst := hnamed.2 first List.mem_cons_self
  have hread := @readFrom_name more [first] ('=' :: '"' :: (escape value ++ '"' :: rest))
    (Place.field name attributes)
    (fun typed c hc => by rw [readChar, if_neg (isAlphanum_ne hc (by decide)), if_pos hc])
    (fun c hc => hnamed.2 c (List.mem_cons_of_mem first hc))
  have hwritten : writeAttribute (first :: more, value) ++ rest =
      ' ' :: first :: (more ++ '=' :: '"' :: (escape value ++ '"' :: rest)) := by
        simp [writeAttribute]
  have hstart :
      readChar (.gap name attributes) first = some ([], .field name attributes [first]) := by
    rw [readChar, if_pos hfirst]
  have hequals : readChar (.field name attributes (first :: more)) '=' =
      some ([], .equals name attributes (first :: more)) := rfl
  have hquote : readChar (.equals name attributes (first :: more)) '"' =
      some ([], .value name attributes (first :: more) []) := rfl
  rw [hwritten, readFrom_on hplace.1, readFrom_on hstart, hread, List.singleton_append,
    readFrom_on hequals, readFrom_on hquote, readFrom_value, List.nil_append]
  exact readFrom_on rfl

theorem readFrom_attributes {more : Attributes} (hplace : Open name attributes place)
    (hnamed : ∀ field ∈ more, Named field.1) :
    readFrom place (more.flatMap writeAttribute ++ '>' :: rest) =
      (readFrom .text rest).map (Token.opens name (attributes ++ more) :: ·) := by
  induction more generalizing attributes place with
  | nil =>
    rw [List.append_nil]
    exact readFrom_out hplace.2
  | cons field more ih =>
    have hquoted : Open name (attributes ++ [field]) (.quoted name (attributes ++ [field])) :=
      ⟨rfl, rfl⟩
    have hmore := ih hquoted fun a ha => hnamed a (List.mem_cons_of_mem field ha)
    rw [List.flatMap_cons, List.append_assoc,
      readFrom_attribute hplace (hnamed field List.mem_cons_self), hmore, List.append_assoc,
      List.singleton_append]

theorem readFrom_opening (hname : Named name) (hnamed : ∀ field ∈ attributes, Named field.1) :
    readFrom .text ((Token.opens name attributes).write ++ rest) =
      (readFrom .text rest).map (Token.opens name attributes :: ·) := by
  obtain ⟨first, more, rfl⟩ := List.exists_cons_of_ne_nil hname.1
  have hfirst := hname.2 first List.mem_cons_self
  have hread :=
    @readFrom_name more [first] (attributes.flatMap writeAttribute ++ '>' :: rest) Place.opening
    (fun typed c hc => by
      rw [readChar, if_neg (isAlphanum_ne hc (by decide)), if_neg (isAlphanum_ne hc (by decide)),
        if_pos hc])
    (fun c hc => hname.2 c (List.mem_cons_of_mem first hc))
  have hwritten : (Token.opens (first :: more) attributes).write ++ rest =
      '<' :: first :: (more ++ (attributes.flatMap writeAttribute ++ '>' :: rest)) := by
        simp [Token.write]
  have hopen : Open (first :: more) [] (.opening (first :: more)) := ⟨rfl, rfl⟩
  have hstart : readChar .tag first = some ([], .opening [first]) := by
    rw [readChar, if_neg (isAlphanum_ne hfirst (by decide)), if_pos hfirst]
  rw [hwritten, readFrom_on readChar_tag, readFrom_on hstart, hread, List.singleton_append,
    readFrom_attributes hopen hnamed, List.nil_append]

/-- What is written is read back. -/
theorem read_write {tokens : List Token} (h : ∀ token ∈ tokens, token.Named) :
    read (write tokens) = some tokens := by
  unfold read
  induction tokens with
  | nil => rfl
  | cons token tokens ih =>
    have htoken := h token List.mem_cons_self
    have hrest := ih fun t ht => h t (List.mem_cons_of_mem token ht)
    have hfirst : readFrom .text (token.write ++ write tokens) =
        (readFrom .text (write tokens)).map (token :: ·) := by
      cases token with
      | opens name attributes => exact readFrom_opening htoken.1 htoken.2
      | closes name => exact readFrom_closing htoken
      | char c => exact readFrom_escapeChar c (write tokens)
    rw [write_cons, hfirst, hrest, Option.map_some]

end Reading

section Nesting

/-- Which elements may stand within which. -/
abbrev Rule := List (List Char) → List Char → Attributes → Prop

/-- Every tag that is opened is closed again in its turn, within the elements around it, and may
stand where it does. -/
inductive Nested (may : Rule) : List (List Char) → List Token → Prop
  | nil {around} : Nested may around []
  | char {around c tokens} (h : Nested may around tokens) : Nested may around (.char c :: tokens)
  | element {around name attributes inner after} (hmay : may around name attributes)
      (hinner : Nested may (name :: around) inner) (hafter : Nested may around after) :
      Nested may around (.opens name attributes :: inner ++ .closes name :: after)

variable {may : Rule} {around : List (List Char)} {name : List Char} {attributes : Attributes}
  {tokens others inner : List Token}

theorem Nested.append (h : Nested may around tokens) (hothers : Nested may around others) :
    Nested may around (tokens ++ others) := by
  induction h with
  | nil => exact hothers
  | char _ ih => exact Nested.char (ih hothers)
  | element hmay hinner _ _ ih =>
    rw [List.append_assoc, List.cons_append]
    exact Nested.element hmay hinner (ih hothers)

theorem Nested.text (text : List Char) : Nested may around (text.map Token.char) := by
  induction text with
  | nil => exact Nested.nil
  | cons c text ih => exact Nested.char ih

theorem Nested.one (hmay : may around name attributes)
    (hinner : Nested may (name :: around) inner) :
    Nested may around (.opens name attributes :: inner ++ [.closes name]) :=
  Nested.element hmay hinner Nested.nil

/-- The names of well nested tags can be read when those that may be opened can. -/
theorem Nested.named (h : Nested may around tokens)
    (hmay : ∀ around name attributes, may around name attributes →
      Named name ∧ ∀ field ∈ attributes, Named field.1) : ∀ token ∈ tokens, token.Named := by
  induction h with
  | nil => simp
  | char _ ih => exact List.forall_mem_cons.mpr ⟨trivial, ih⟩
  | element hfits _ _ ihinner ihafter =>
    have hnamed := hmay _ _ _ hfits
    intro token htoken
    rcases List.mem_append.mp htoken with htoken | htoken
    · rcases List.mem_cons.mp htoken with rfl | htoken
      · exact hnamed
      · exact ihinner token htoken
    · rcases List.mem_cons.mp htoken with rfl | htoken
      · exact hnamed.1
      · exact ihafter token htoken

end Nesting

section Showing

/-- The text of the tokens but for what stands in an element that is `hidden`; `within` counts the
open elements of the one that is being left out. -/
def shown (hidden : List Char → Attributes → Bool) : (within : ℕ) → List Token → List Char
  | _, [] => []
  | 0, .char c :: rest => c :: shown hidden 0 rest
  | 0, .opens name attributes :: rest => shown hidden (if hidden name attributes then 1 else 0) rest
  | 0, .closes _ :: rest => shown hidden 0 rest
  | within + 1, .char _ :: rest => shown hidden (within + 1) rest
  | within + 1, .opens _ _ :: rest => shown hidden (within + 2) rest
  | within + 1, .closes _ :: rest => shown hidden within rest

variable {may : Rule} {hidden : List Char → Attributes →
  Bool} {around : List (List Char)} {name : List Char}
  {attributes : Attributes} {tokens inner rest : List Token} {within : ℕ}

/-- Inside what is left out nothing shows. -/
theorem Nested.shown_within (h : Nested may around tokens) :
    shown hidden (within + 1) (tokens ++ rest) = shown hidden (within + 1) rest := by
  induction h generalizing within rest with
  | nil => rfl
  | char _ ih => exact ih
  | element _ _ _ ihinner ihafter =>
    rw [List.append_assoc, List.cons_append, List.cons_append, shown, ihinner, shown, ihafter]

theorem Nested.shown_append (h : Nested may around tokens) :
    shown hidden 0 (tokens ++ rest) = shown hidden 0 tokens ++ shown hidden 0 rest := by
  induction h generalizing rest with
  | nil => rfl
  | char _ ih => rw [List.cons_append, shown, shown, ih, List.cons_append]
  | @element _ name attributes inner after _ hinner _ ihinner ihafter =>
    by_cases hhidden : hidden name attributes = true
    · simp only [List.append_assoc, List.cons_append, shown, hhidden, if_true, hinner.shown_within,
        ihafter]
    · simp only [List.append_assoc, List.cons_append, shown, hhidden, Bool.false_eq_true, if_false]
      rw [ihinner, ihinner, shown, shown, ihafter, List.append_assoc]

theorem shown_text (text : List Char) : shown hidden 0 (text.map Token.char) = text := by
  induction text with
  | nil => rfl
  | cons c text ih => rw [List.map_cons, shown, ih]

theorem Nested.shown_one (hinner : Nested may around inner) (h : hidden name attributes = false) :
    shown hidden 0 (.opens name attributes :: inner ++ [.closes name]) = shown hidden 0 inner := by
  rw [List.cons_append, shown, h, if_neg Bool.false_ne_true, hinner.shown_append, shown, shown,
    List.append_nil]

theorem Nested.shown_hidden (hinner : Nested may around inner) (h : hidden name attributes = true) :
    shown hidden 0 (.opens name attributes :: inner ++ [.closes name]) = [] := by
  rw [List.cons_append, shown, h, if_pos rfl, hinner.shown_within, shown, shown]

end Showing

end Markup
