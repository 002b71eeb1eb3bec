import Mathlib.Data.Bool.AllAny
import Linger.ArchiveBodyBlocks
import Linger.Markup

/-! What a body is written as: tags the page means, around text that is only text. -/
namespace Linger.ArchiveBody
open CheckedText
open Names (Text trim isWhitespace)
open Markup (Token Nested shown)

/-- The elements a body's page is made of. -/
def tags : List Text :=
  ["p".toList, "blockquote".toList, "pre".toList, "code".toList, "ol".toList, "ul".toList,
    "li".toList, "strong".toList, "em".toList, "del".toList, "a".toList, "span".toList]

def fields : List Text :=
  ["href".toList, "title".toList, "rel".toList, "class".toList, "start".toList]

/-- What may stand where: the page's own elements, no link in a link, and no address but of a scheme
that is kept. -/
structure May (around : List Text) (name : Text) (attributes : Markup.Attributes) : Prop where
  tag : name ∈ tags
  link : name = "a".toList → "a".toList ∉ around
  field : ∀ field ∈ attributes, field.1 ∈ fields
  href : ∀ field ∈ attributes, field.1 = "href".toList → Kept field.2

/-- The note beside a link whose words name another site. -/
def isNote (name : Text) (attributes : Markup.Attributes) : Bool :=
  name == "span".toList && attributes.contains ("class".toList, "real".toList)

/-- Markup as it may be written within the elements around it, and the text that shows in it. -/
def Written (around : List Text) (html words : Text) : Prop :=
  ∃ tokens, html = Markup.write tokens ∧ Nested May around tokens ∧ shown isNote 0 tokens = words

section Pieces

variable {around : List Text} {html more words name opening closing : Text}
  {attributes : Markup.Attributes}

theorem escape_eq (text : Text) : escape text = Markup.escape text := rfl

theorem Written.nil : Written around [] [] := ⟨[], rfl, Nested.nil, rfl⟩

theorem Written.append {others : Text} (h : Written around html words)
    (hmore : Written around more others) :
    Written around (html ++ more) (words ++ others) := by
  obtain ⟨tokens, rfl, hnested, rfl⟩ := h
  obtain ⟨after, rfl, hafter, rfl⟩ := hmore
  exact ⟨tokens ++ after, (Markup.write_append tokens after).symm, hnested.append hafter,
    hnested.shown_append⟩

/-- Escaped text is text. -/
theorem Written.text (text : Text) : Written around (escape text) text := by
  refine ⟨text.map Token.char, ?_, Nested.text text, Markup.shown_text text⟩
  rw [Markup.write_text, escape_eq]

theorem write_element (name : Text) (attributes : Markup.Attributes) (inner : List Token) :
    Markup.write (.opens name attributes :: inner ++ [.closes name]) =
      (Token.opens name attributes).write ++ Markup.write inner ++ (Token.closes name).write := by
  rw [List.cons_append, Markup.write_cons, Markup.write_append, Markup.write_cons, Markup.write_nil,
    List.append_nil, List.append_assoc]

theorem Written.element (hopening : opening = (Token.opens name attributes).write)
    (hclosing : closing = (Token.closes name).write) (hmay : May around name attributes)
    (hnote : isNote name attributes = false) (h : Written (name :: around) html words) :
    Written around (opening ++ html ++ closing) words := by
  obtain ⟨inner, rfl, hnested, rfl⟩ := h
  refine ⟨.opens name attributes :: inner ++ [.closes name], ?_, Nested.one hmay hnested,
    hnested.shown_one hnote⟩
  rw [write_element, hopening, hclosing]

/-- An element that leads nowhere may stand anywhere. -/
theorem May.of_names {names : List Text} (hname : name ∈ tags ∧ name ≠ "a".toList)
    (hattributes : attributes.map Prod.fst = names)
    (hnames : ∀ field ∈ names, field ∈ fields ∧ field ≠ "href".toList) :
    May around name attributes := by
  have hfields : ∀ field ∈ attributes, field.1 ∈ fields ∧ field.1 ≠ "href".toList := by
    intro field hfield
    exact hnames field.1 (hattributes ▸ List.mem_map_of_mem hfield)
  exact ⟨hname.1, fun ha => absurd ha hname.2, fun field hfield => (hfields field hfield).1,
    fun field hfield hhref => absurd hhref (hfields field hfield).2⟩

/-- An element that is no link and carries nothing. -/
theorem Written.tag (name : Text) (hopening : opening = '<' :: name ++ ['>'])
    (hclosing : closing = '<' :: '/' :: name ++ ['>']) (hname : name ∈ tags ∧ name ≠ "a".toList)
    (h : Written (name :: around) html words) :
    Written around (opening ++ html ++ closing) words := by
  have hmay : May around name [] := May.of_names hname rfl (by simp)
  have hwrite : opening = (Token.opens name []).write := by
    rw [hopening, Token.write, List.flatMap_nil, List.append_nil]
  exact Written.element hwrite hclosing hmay (by simp [isNote]) h

def noteFields (real : Text) : Markup.Attributes :=
  [("class".toList, "real".toList), ("title".toList, "This link goes to ".toList ++ real)]

theorem title_write (real : Text) :
    Markup.writeAttribute ("title".toList, "This link goes to ".toList ++ real) =
      " title=\"This link goes to ".toList ++ Markup.escape real ++ "\"".toList := by
  have hplain : Markup.escape "This link goes to ".toList = "This link goes to ".toList := by decide
  rw [Markup.writeAttribute, Markup.escape_append, hplain]
  simp

theorem noteFields_write (real : Text) :
    (Token.opens "span".toList (noteFields real)).write =
      "<span class=\"real\" title=\"This link goes to ".toList ++ Markup.escape real ++
        "\">".toList := by
  have hclass :
      Markup.writeAttribute ("class".toList, "real".toList) = " class=\"real\"".toList := by decide
  rw [Token.write, noteFields, List.flatMap_cons, List.flatMap_cons, List.flatMap_nil]
  rw [hclass, title_write]
  simp

theorem said_write (real : Text) :
    Markup.escape (" (".toList ++ real ++ ")".toList) =
      " (".toList ++ Markup.escape real ++ ")".toList := by
  have hopen : Markup.escape " (".toList = " (".toList := by decide
  have hclose : Markup.escape ")".toList = ")".toList := by decide
  rw [Markup.escape_append, Markup.escape_append, hopen, hclose]

theorem renderReal_write (real : Text) :
    renderReal real = (Token.opens "span".toList (noteFields real)).write ++
      Markup.escape (" (".toList ++ real ++ ")".toList) ++ (Token.closes "span".toList).write := by
  have hclosing : (Token.closes "span".toList).write = "</span>".toList := by decide
  have hbetween : "\"> (".toList = "\">".toList ++ " (".toList := by decide
  have hend : ")</span>".toList = ")".toList ++ "</span>".toList := by decide
  have hopening := noteFields_write real
  have hsaid := said_write real
  rw [hopening, hsaid, hclosing]
  calc renderReal real = "<span class=\"real\" title=\"This link goes to ".toList ++
      Markup.escape real ++
        "\"> (".toList ++ Markup.escape real ++ ")</span>".toList := rfl
    _ = _ := by rw [hbetween, hend]; simp only [List.append_assoc]

/-- The note adds no text of the body's. -/
theorem Written.note (real : Text) : Written around (renderReal real) [] := by
  have hnames : (noteFields real).map Prod.fst = ["class".toList, "title".toList] := rfl
  have hmay : May around "span".toList (noteFields real) :=
    May.of_names (by decide) hnames (by decide)
  have hinner :
      Nested May ("span".toList :: around) ((" (".toList ++ real ++ ")".toList).map Token.char) :=
    Nested.text _
  have hhidden : isNote "span".toList (noteFields real) = true := by
    rw [isNote, noteFields, List.contains_cons]
    rfl
  refine ⟨.opens "span".toList (noteFields real) ::
    (" (".toList ++ real ++ ")".toList).map Token.char ++
    [.closes "span".toList], ?_, Nested.one hmay hinner, hinner.shown_hidden hhidden⟩
  rw [write_element, Markup.write_text, renderReal_write]

def linkFields (href : Text) : Markup.Attributes :=
  [("href".toList, href), ("title".toList, href), ("rel".toList, "noreferrer".toList)]

theorem linkFields_write (href : Text) :
    "<a href=\"".toList ++ escape href ++ "\" title=\"".toList ++ escape href ++
      "\" rel=\"noreferrer\">".toList =
      (Token.opens "a".toList (linkFields href)).write := by
  have hrel : Markup.writeAttribute ("rel".toList, "noreferrer".toList) =
      " rel=\"noreferrer\"".toList := by decide
  rw [Token.write, linkFields, List.flatMap_cons, List.flatMap_cons, List.flatMap_cons, hrel,
    escape_eq]
  simp [Markup.writeAttribute]

/-- A link's tag shows its address twice, escaped each time. -/
theorem Written.link {href : Text} (haround : "a".toList ∉ around) (hkept : Kept href)
    (h : Written ("a".toList :: around) html words) :
    Written around ("<a href=\"".toList ++ escape href ++ "\" title=\"".toList ++ escape href ++
      "\" rel=\"noreferrer\">".toList ++ html ++ "</a>".toList) words := by
  have hfields : ∀ field ∈ (linkFields href).map Prod.fst, field ∈ fields := by
    have hnames : (linkFields href).map Prod.fst = ["href".toList, "title".toList, "rel".toList] :=
      rfl
    rw [hnames]
    decide
  have hmay : May around "a".toList (linkFields href) := by
    refine ⟨by decide, fun _ => haround,
      fun field hfield => hfields field.1 (List.mem_map_of_mem hfield), ?_⟩
    intro field hfield hname
    simp only [linkFields, List.mem_cons, List.not_mem_nil, or_false] at hfield
    rcases hfield with rfl | rfl | rfl
    · exact hkept
    · exact hkept
    · exact absurd hname (by decide)
  exact Written.element (linkFields_write href) (by decide) hmay (by rfl) h

/-- A list's number is in digits, which nothing need be escaped of. -/
theorem openList_write (ordered : Bool) (start : ℕ) :
    ∃ name attributes, openList ordered start = (Token.opens name attributes).write ∧
      (if ordered then "</ol>".toList else "</ul>".toList) = (Token.closes name).write ∧
      name ≠ "a".toList ∧ (∀ around, May around name attributes) ∧
      isNote name attributes = false := by
  unfold openList
  cases ordered with
  | false =>
    rw [if_neg Bool.false_ne_true, if_neg Bool.false_ne_true]
    exact ⟨"ul".toList, [], by decide, by decide, by decide,
      fun around => May.of_names (by decide) rfl (by simp), by decide⟩
  | true =>
    rw [if_pos rfl, if_pos rfl]
    by_cases hstart : start = 1
    · rw [if_pos hstart]
      exact ⟨"ol".toList, [], by decide, by decide, by decide,
        fun around => May.of_names (by decide) rfl (by simp), by decide⟩
    · have hdigits : Markup.escape (Nat.toDigits 10 start) = Nat.toDigits 10 start := by
        apply Markup.escape_of_not_mem
        intro c hc hmark
        have hdigit := Nat.isDigit_of_mem_toDigits (by decide) (by decide) hc
        have hmarks : ∀ mark ∈ Markup.marks, mark.isDigit = false :=
          List.all_iff_forall_prop.mp (by decide)
        rw [hmarks c hmark] at hdigit
        exact Bool.noConfusion hdigit
      have hnames : [("start".toList, Nat.toDigits 10 start)].map Prod.fst = ["start".toList] := rfl
      have hwrite : "<ol start=\"".toList ++ Nat.toDigits 10 start ++ "\">".toList =
          (Token.opens "ol".toList [("start".toList, Nat.toDigits 10 start)]).write := by
        rw [Token.write, List.flatMap_cons, Markup.writeAttribute, hdigits]
        simp
      rw [if_neg hstart]
      exact ⟨"ol".toList, _, hwrite, by decide, by decide,
        fun around => May.of_names (by decide) hnames (by decide), rfl⟩

end Pieces

section Rendering

variable {outside : Outside}

theorem beneath {inLink : Bool} {around : List Text} {name : Text}
    (h : inLink = false → "a".toList ∉ around)
    (hname : "a".toList ≠ name) : inLink = false → "a".toList ∉ name :: around := by
  intro hin ha
  rcases List.mem_cons.mp ha with ha | ha
  · exact hname ha
  · exact h hin ha

mutual

/-- A node is written as tags that may stand where it does, around what it says. -/
theorem renderNode_written {inLink : Bool} {around : List Text}
    (haround : inLink = false → "a".toList ∉ around) :
    (node : Inline) → SoundNode inLink node →
      Returns (renderNode outside node) fun html => Written around html (flattenNode node)
  | .text words, _ => Returns.pure (Written.text words)
  | .code words, _ =>
    Returns.pure (Written.tag "code".toList rfl rfl (by decide) (Written.text words))
  | .strong children, h => by
    apply Returns.bind
      (renderInline_written (@beneath _ _ "strong".toList haround (by decide)) children h)
    intro html _ hhtml
    exact Returns.pure (Written.tag "strong".toList rfl rfl (by decide) hhtml)
  | .em children, h => by
    apply Returns.bind
      (renderInline_written (@beneath _ _ "em".toList haround (by decide)) children h)
    intro html _ hhtml
    exact Returns.pure (Written.tag "em".toList rfl rfl (by decide) hhtml)
  | .strike children, h => by
    apply Returns.bind
      (renderInline_written (@beneath _ _ "del".toList haround (by decide)) children h)
    intro html _ hhtml
    exact Returns.pure (Written.tag "del".toList rfl rfl (by decide) hhtml)
  | .link href children, h => by
    have hchildren := @renderInline_written true ("a".toList :: around) (by simp) children h.2.2
    apply Returns.bind hchildren
    intro html _ hhtml
    apply Returns.bind (disguisedHost_finds outside (flattenInline children) href)
    intro real _ _
    have hnote : Written around ((real.map renderReal).getD []) [] := by
      cases real with
      | none => exact Written.nil
      | some real => exact Written.note real
    have hwritten := (Written.link (haround h.1) h.2.1 hhtml).append hnote
    rw [List.append_nil] at hwritten
    exact Returns.pure hwritten

theorem renderInline_written {inLink : Bool} {around : List Text}
    (haround : inLink = false → "a".toList ∉ around) :
    (nodes : List Inline) → Sound inLink nodes →
      Returns (renderInline outside nodes) fun html => Written around html (flattenInline nodes)
  | [], _ => Returns.pure Written.nil
  | node :: nodes, h => by
    apply Returns.bind (renderNode_written haround node h.1)
    intro html _ hhtml
    apply Returns.bind (renderInline_written haround nodes h.2)
    intro more _ hmore
    exact Returns.pure (hhtml.append hmore)

end

theorem renderItems_written {around : List Text} (haround : "a".toList ∉ around)
    (items : List (List Inline))
    (h : ∀ item ∈ items, Sound false item) :
    Returns (renderItems outside items) fun html =>
      Written around html (items.map flattenInline).flatten := by
  induction items with
  | nil => exact Returns.pure Written.nil
  | cons item items ih =>
    have hitem := h item List.mem_cons_self
    apply Returns.bind (renderInline_written
      (@beneath false _ "li".toList (fun _ => haround) (by decide)) item hitem)
    intro html _ hhtml
    apply Returns.bind (ih fun other hother => h other (List.mem_cons_of_mem item hother))
    intro more _ hmore
    exact Returns.pure ((Written.tag "li".toList rfl rfl (by decide) hhtml).append hmore)

mutual

/-- The same of a block. -/
theorem renderBlock_written {around : List Text} (haround : "a".toList ∉ around) :
    (block : Block) → SoundBlock block →
      Returns (renderBlock outside block) fun html => Written around html (blockWords block)
  | .paragraph children, h => by
    have hbeneath := @beneath false _ "p".toList (fun _ => haround) (by decide)
    apply Returns.bind (renderInline_written hbeneath children h)
    intro html _ hhtml
    exact Returns.pure (Written.tag "p".toList rfl rfl (by decide) hhtml)
  | .quote children, h => by
    have hbeneath := @beneath false _ "blockquote".toList (fun _ => haround) (by decide)
    apply Returns.bind (renderBlocks_written (hbeneath rfl) children h)
    intro html _ hhtml
    exact Returns.pure (Written.tag "blockquote".toList rfl rfl (by decide) hhtml)
  | .code words, _ => by
    have hcode :
        Written around ("<pre>".toList ++ ("<code>".toList ++ escape words ++ "</code>".toList) ++
        "</pre>".toList) words :=
      Written.tag "pre".toList rfl rfl (by decide)
        (Written.tag "code".toList rfl rfl (by decide) (Written.text words))
    have hhtml : "<pre><code>".toList ++ escape words ++ "</code></pre>".toList =
        "<pre>".toList ++ ("<code>".toList ++ escape words ++ "</code>".toList) ++
          "</pre>".toList := by simp
    rw [renderBlock, hhtml]
    exact Returns.pure hcode
  | .list ordered start items, h => by
    obtain ⟨name, attributes, hopening, hclosing, hname, hmay, hnote⟩ :=
      openList_write ordered start
    have hbeneath := @beneath false _ name (fun _ => haround) hname.symm
    apply Returns.bind (renderItems_written (hbeneath rfl) items h)
    intro html _ hhtml
    exact Returns.pure (Written.element hopening hclosing (hmay around) hnote hhtml)

theorem renderBlocks_written {around : List Text} (haround : "a".toList ∉ around) :
    (blocks : List Block) → SoundBlocks blocks →
      Returns (renderBlocks outside blocks) fun html => Written around html (blocksWords blocks)
  | [], _ => Returns.pure Written.nil
  | block :: blocks, h => by
    apply Returns.bind (renderBlock_written haround block h.1)
    intro html _ hhtml
    apply Returns.bind (renderBlocks_written haround blocks h.2)
    intro more _ hmore
    exact Returns.pure (hhtml.append hmore)

end

theorem toHtml_returns (houtside : outside.Serialises) (body : Text) :
    Returns (toHtml outside body) fun html => ∃ words, Written [] html words ∧
      words.Sublist body := by
  apply Returns.bind (parseBlocks_returns houtside maxBlockDepth (body.splitOn '\n'))
  intro blocks _ hblocks
  apply Returns.mono (renderBlocks_written List.not_mem_nil blocks hblocks.sound)
  intro html hhtml
  have hjoin : join (body.splitOn '\n') = body := List.intercalate_splitOn '\n'
  exact ⟨blocksWords blocks, hhtml, hjoin ▸ hblocks.words⟩

theorem May.named {around : List Text} {name : Text} {attributes : Markup.Attributes}
    (h : May around name attributes) :
    Markup.Named name ∧ ∀ field ∈ attributes, Markup.Named field.1 := by
  have hnamed : ∀ {names : List Text},
      (names.all fun word => !word.isEmpty && word.all Char.isAlphanum) = true →
      ∀ word ∈ names, Markup.Named word := by
    intro names hall word hword
    have hgood := List.all_eq_true.mp hall word hword
    simp only [Bool.and_eq_true, Bool.not_eq_true', List.isEmpty_eq_false_iff] at hgood
    exact ⟨hgood.1, List.all_eq_true.mp hgood.2⟩
  have htags : ∀ tag ∈ tags, Markup.Named tag := hnamed (by decide)
  have hfields : ∀ field ∈ fields, Markup.Named field := hnamed (by decide)
  exact ⟨htags name h.tag, fun field hfield => hfields field.1 (h.field field hfield)⟩

/-- Every body is written out, and what is written reads as tags well nested: the page's own, no
link in a link, every address of a scheme that is kept, every value between double quotes with no
quote and no angle bracket in it. What shows of it but for the notes is among the body's characters,
in their order. -/
theorem body_is_text (houtside : outside.Serialises) (body : Text) :
    ∃ html tokens, toHtml outside body = .ok html ∧ html = Markup.write tokens ∧
      Markup.read html = some tokens ∧ Nested May [] tokens ∧
      (∀ name attributes, Token.opens name attributes ∈ tokens → ∀ field ∈ attributes,
        ∀ c ∈ Markup.escape field.2, c ∉ ['<', '>', '"', '\'']) ∧
      (shown isNote 0 tokens).Sublist body := by
  obtain ⟨html, hhtml, words, ⟨tokens, hwrite, hnested, hshown⟩, hwords⟩ :=
    toHtml_returns houtside body
  have hread : Markup.read html = some tokens := by
    rw [hwrite]
    exact Markup.read_write (hnested.named fun _ _ _ hmay => hmay.named)
  exact ⟨html, tokens, hhtml, hwrite, hread, hnested, fun _ _ _ field _ => Markup.escape_quiet,
    hshown ▸ hwords⟩

/-- A parser that reads `https` addresses and no others. -/
def httpsOnly : Outside where
  parse raw :=
    if "https://".toList.isPrefixOf raw then
      let host := (raw.drop 8).takeWhile (· ≠ '/')
      let path := (raw.drop 8).dropWhile (· ≠ '/')
      if host.isEmpty then none
      else some ⟨"https".toList,
        "https://".toList ++ host ++ (if path.isEmpty then ['/'] else path), some host⟩
    else none
  isAlphanumeric := Char.isAlphanum
  isAlphabetic := Char.isAlpha
  toLowercase := List.map Char.toLower

theorem httpsOnly_serialises : httpsOnly.Serialises := by
  intro raw url hurl
  simp only [httpsOnly] at hurl
  split at hurl
  · split at hurl
    · exact absurd hurl (by simp)
    · rw [← Option.some.inj hurl]
      exact ⟨_, rfl⟩
  · exact absurd hurl (by simp)

/-- A link whose words name another site, in a quote, among what looks like markup. -/
theorem body_is_text_disguised :
    toHtml httpsOnly "> <b>[www.paypal.com](https://evil.example)".toList =
      .ok ("<blockquote><p>&lt;b&gt;<a href=\"https://evil.example/\" title=\"https://evil.example/\"".toList ++
        " rel=\"noreferrer\">www.paypal.com</a>".toList ++
        "<span class=\"real\" title=\"This link goes to evil.example\"> (evil.example)</span></p></blockquote>".toList) ∧
    ∃ html tokens, toHtml httpsOnly "> <b>[www.paypal.com](https://evil.example)".toList =
      .ok html ∧
      html = Markup.write tokens ∧ Markup.read html = some tokens ∧ Nested May [] tokens ∧
      (∀ name attributes, Token.opens name attributes ∈ tokens → ∀ field ∈ attributes,
        ∀ c ∈ Markup.escape field.2, c ∉ ['<', '>', '"', '\'']) ∧
      (shown isNote 0 tokens).Sublist "> <b>[www.paypal.com](https://evil.example)".toList :=
  ⟨by decide +kernel, body_is_text httpsOnly_serialises _⟩

end Rendering

end Linger.ArchiveBody
