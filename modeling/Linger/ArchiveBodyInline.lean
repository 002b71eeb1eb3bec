import Linger.ArchiveBody

/-! What a body's words are parsed into: the parser always returns, what its nodes say is among the
characters typed and in their order, links lead where they may and none stands in another. -/
namespace Linger.ArchiveBody
open CheckedText
open Names (Text trim isWhitespace)

/-- What the URL parser is known to do: what it writes out starts with the scheme it read. -/
def Outside.Serialises (outside : Outside) : Prop :=
  ∀ raw url, outside.parse raw = some url → ∃ rest, url.serialised = url.scheme ++ ':' :: rest

def Kept (href : Text) : Prop := ∃ scheme ∈ schemes, ∃ rest, href = scheme ++ ':' :: rest

mutual

/-- A node whose links lead where they may, with none in another; `inLink` says whether the node
stands in one. -/
def SoundNode (inLink : Bool) : Inline → Prop
  | .text _ | .code _ => True
  | .strong children | .em children | .strike children => Sound inLink children
  | .link href children => inLink = false ∧ Kept href ∧ Sound true children

def Sound (inLink : Bool) : List Inline → Prop
  | [] => True
  | node :: nodes => SoundNode inLink node ∧ Sound inLink nodes

end

theorem Sound.append {inLink : Bool} {nodes others : List Inline} (h : Sound inLink nodes)
    (hothers : Sound inLink others) : Sound inLink (nodes ++ others) := by
  induction nodes with
  | nil => exact hothers
  | cons node nodes ih =>
    rw [List.cons_append, Sound]
    rw [Sound] at h
    exact ⟨h.1, ih h.2⟩

theorem Sound.one {inLink : Bool} {node : Inline} (h : SoundNode inLink node) :
    Sound inLink [node] := by
  rw [Sound, Sound]
  exact ⟨h, trivial⟩

@[simp] theorem flattenInline_append (nodes others : List Inline) :
    flattenInline (nodes ++ others) = flattenInline nodes ++ flattenInline others := by
  induction nodes with
  | nil => rw [flattenInline, List.nil_append, List.nil_append]
  | cons node nodes ih => rw [List.cons_append, flattenInline, flattenInline, ih, List.append_assoc]

@[simp] theorem flattenInline_one (node : Inline) : flattenInline [node] = flattenNode node := by
  rw [flattenInline, flattenInline, List.append_nil]

theorem safeHref_kept {outside : Outside} (houtside : outside.Serialises) {raw href : Text}
    (h : safeHref outside raw = some href) : Kept href := by
  obtain ⟨url, hurl, hscheme⟩ := Option.bind_eq_some_iff.mp h
  split at hscheme
  · next hmem =>
    obtain ⟨rest, hrest⟩ := houtside _ url hurl
    exact ⟨url.scheme, hmem, rest, (Option.some.inj hscheme) ▸ hrest⟩
  · exact absurd hscheme (by simp)

/-- A node and where it ends, as they may come of what starts at a place. -/
structure Fits (inLink : Bool) (source : Text) (place : ℕ) (found : Inline × ℕ) : Prop where
  onward : place < found.2
  inside : found.2 ≤ source.length
  sound : SoundNode inLink found.1
  words : (flattenNode found.1).Sublist ((source.take found.2).drop place)

/-- What a parser makes of a text. -/
structure Parsed (inLink : Bool) (source : Text) (nodes : List Inline) : Prop where
  sound : Sound inLink nodes
  words : (flattenInline nodes).Sublist source

section Code

variable {source : Text} {place : ℕ}

theorem runLength_le (rest : Text) (ch : Char) : runLength rest ch ≤ rest.length :=
  (List.takeWhile_sublist _).length_le

theorem findRun_spec {ch : Char} {length skip close : ℕ} {rest : Text}
    (h : findRun ch length skip rest place = some close) :
    place ≤ close ∧ close + length ≤ place + rest.length := by
  induction rest generalizing skip place with
  | nil => simp [findRun] at h
  | cons c rest ih =>
    cases skip with
    | succ skip =>
      rw [findRun] at h
      have := ih h
      rw [List.length_cons]
      omega
    | zero =>
      rw [findRun] at h
      split at h
      · have := ih h
        rw [List.length_cons]
        omega
      · dsimp only at h
        split at h
        · next hrun =>
          have hle := runLength_le (c :: rest) ch
          have hclose := Option.some.inj h
          omega
        · have := ih h
          rw [List.length_cons]
          omega

/-- What stands between two spaces is cut out whole. -/
theorem between_spaces {text : Text} (hlength : 2 < text.length) (hhead : text.head? = some ' ')
    (hlast : text.getLast? = some ' ') :
    Returns (do bytesFrom (← bytesTo text (byteLen text - 1)) 1) fun part => part.Sublist text := by
  obtain ⟨before, hbefore⟩ := List.getLast?_eq_some_iff.mp hlast
  obtain ⟨inner, rfl⟩ : ∃ inner, before = ' ' :: inner := by
    cases before with
    | nil => rw [hbefore] at hlength; simp at hlength
    | cons c inner =>
      rw [hbefore] at hhead
      exact ⟨inner, by rw [Option.some.inj hhead]⟩
  have hbytes : byteLen text - 1 = byteLen (' ' :: inner) := by
    rw [hbefore, byteLen_append]
    exact Nat.add_sub_cancel _ 1
  refine ⟨inner, ?_, ?_⟩
  · rw [hbytes, hbefore, bytesTo_append]
    exact bytesFrom_append [' '] inner
  · rw [hbefore, List.cons_append]
    exact (List.sublist_append_left inner [' ']).cons ' '

theorem matchCode_finds (inLink : Bool) (hplace : source[place]? = some '`') :
    Finds (matchCode source place) (Fits inLink source place) := by
  have hlt := (List.getElem?_eq_some_iff.mp hplace).1
  apply Finds.bind (Finds.lift (slice_returns hlt.le le_rfl))
  intro rest hrest
  rw [List.take_length] at hrest
  have hrun : 1 ≤ runLength rest '`' ∧ place + runLength rest '`' ≤ source.length := by
    have hle := runLength_le rest '`'
    rw [hrest, List.length_drop] at hle
    refine ⟨?_, by rw [hrest]; omega⟩
    rw [hrest, List.drop_eq_getElem_cons hlt, (List.getElem?_eq_some_iff.mp hplace).2, runLength]
    simp
  generalize runLength rest '`' = run at hrun
  apply Finds.bind (Finds.found fun close hclose => findRun_spec hclose)
  intro close hclose
  rw [List.length_drop] at hclose
  have hend : close + run ≤ source.length := by omega
  have hpart :
      ((source.take close).drop (place + run)).Sublist ((source.take (close + run)).drop place) :=
    part_sublist (by omega) (by omega)
  apply Finds.bind (Finds.lift (slice_returns hclose.1 (by omega)))
  intro text htext
  have hfits : ∀ part : Text, part.Sublist text →
      Fits inLink source place (.code part, close + run) := by
    intro part hsub
    exact ⟨by show place < close + run; omega, hend, by rw [SoundNode]; trivial,
      by rw [flattenNode]; exact (htext ▸ hsub).trans hpart⟩
  split
  · next hspaces =>
    apply Finds.bind (Finds.lift (between_spaces hspaces.1 hspaces.2.1 hspaces.2.2))
    intro part hsub
    exact Finds.pure (hfits part hsub)
  · exact Finds.pure (hfits text (List.Sublist.refl text))

end Code

section Addresses

/-- The loop of `trim_address` ends; it takes from the end, and only closing parens. -/
theorem trimParens_returns {turns : ℕ} {raw : Text} (hturns : raw.length ≤ turns) :
    Returns (trimParens turns raw) fun left => left <+: raw ∧ ∀ c ∈ raw, c ≠ ')' → c ∈ left := by
  induction turns generalizing raw with
  | zero =>
    have hraw : raw = [] := List.length_eq_zero_iff.mp (Nat.le_zero.mp hturns)
    rw [hraw, trimParens]
    exact Returns.pure ⟨List.prefix_refl [], fun c hc => absurd hc (by simp)⟩
  | succ turns ih =>
    rw [trimParens]
    split
    · next hclosing =>
      obtain ⟨before, rfl⟩ := List.getLast?_eq_some_iff.mp hclosing.1
      have hbytes : byteLen (before ++ [')']) - 1 = byteLen before := by
        rw [byteLen_append]
        exact Nat.add_sub_cancel _ 1
      have hbefore : before.length ≤ turns := by
        rw [List.length_append, List.length_singleton] at hturns
        omega
      obtain ⟨left, hleft, hprefix, hkept⟩ := ih hbefore
      refine ⟨left, ?_, hprefix.trans (List.prefix_append before [')']), ?_⟩
      · show (bytesTo (before ++ [')']) (byteLen (before ++ [')']) - 1) >>= trimParens turns) =
            .ok left
        rw [hbytes, bytesTo_append]
        exact hleft
      · intro c hc hne
        rcases List.mem_append.mp hc with hc | hc
        · exact hkept c hc hne
        · exact absurd (List.mem_singleton.mp hc) hne
    · exact Returns.pure ⟨List.prefix_refl raw, fun c hc _ => hc⟩

theorem trimAddress_returns (found : Text) :
    Returns (trimAddress found) fun raw => raw <+: found ∧ ('/' ∈ found → '/' ∈ raw) := by
  apply Returns.mono (trimParens_returns le_rfl)
  intro raw hraw
  refine ⟨hraw.1.trans (List.rdropWhile_prefix _ _), fun hslash => ?_⟩
  apply hraw.2 '/' _ (by decide)
  -- A slash is none of the characters that are taken off the end.
  obtain ⟨before, after, rfl⟩ := List.append_of_mem hslash
  rw [List.rdropWhile, List.reverse_append, List.reverse_cons, List.append_assoc,
    List.dropWhile_append]
  split
  · rw [List.singleton_append, List.dropWhile_cons_of_neg (by decide)]
    simp
  · simp

theorem withoutTitle_returns (target : Text) : Returns (withoutTitle target) fun _ => True := by
  unfold withoutTitle
  split
  · exact Returns.pure trivial
  · next space hspace =>
    obtain ⟨before, c, after, rfl, rfl, -⟩ := find_spec hspace
    rw [splitAtByte_append]
    show Returns (ite _ _ _) _
    split
    · exact Returns.pure trivial
    · exact Returns.pure trivial

theorem hasScheme_returns (text : Text) : Returns (hasScheme text) fun _ => True := by
  unfold hasScheme
  split
  · exact Returns.pure trivial
  · next stop hstop =>
    obtain ⟨before, after, rfl, rfl⟩ := findText_spec hstop
    rw [List.append_assoc, bytesTo_append]
    exact Returns.pure trivial

theorem bareDomain_returns (text : Text) : Returns (bareDomain text) fun _ => True := by
  have hcut : Returns (bytesTo text ((find (· ∈ ['/', '?', '#']) text).getD (byteLen text)))
      fun _ => True := by
    cases hfind : find (· ∈ ['/', '?', '#']) text with
    | none =>
      have h := bytesTo_append text []
      rw [List.append_nil] at h
      exact ⟨text, h, trivial⟩
    | some stop =>
      obtain ⟨before, c, after, rfl, rfl, -⟩ := find_spec hfind
      exact ⟨before, bytesTo_append before (c :: after), trivial⟩
  apply Returns.bind hcut
  intro hostPort _ _
  exact Returns.pure trivial

theorem afterAt_returns (authority : Text) :
    Returns (afterAt authority (rfind '@' authority)) fun _ => True := by
  cases hplace : rfind '@' authority with
  | none => exact Returns.pure trivial
  | some place =>
    obtain ⟨before, after, rfl, rfl⟩ := rfind_spec hplace
    have hcut := bytesFrom_append (before ++ ['@']) after
    rw [byteLen_append, List.append_assoc] at hcut
    exact ⟨after, hcut, trivial⟩

theorem urlAndAuthority_finds (outside : Outside) (text : Text) :
    Finds (wordsHost.urlAndAuthority outside text) fun _ => True := by
  apply Finds.bind (Finds.lift (hasScheme_returns text))
  intro scheme _
  split
  · apply Finds.bind (Finds.answered _)
    intro url _
    split
    · apply Finds.bind (Finds.found fun place hplace => findText_spec hplace)
      rintro place ⟨before, after, rfl, rfl⟩
      have hcut := bytesFrom_append (before ++ "//".toList) after
      rw [byteLen_append] at hcut
      have hafter :
          Returns (bytesFrom (before ++ "//".toList ++ after) (byteLen before + 2)) fun _ => True :=
        ⟨after, hcut, trivial⟩
      exact Finds.bind (Finds.lift hafter) fun _ _ => Finds.pure trivial
    · exact Finds.failure
  · apply Finds.bind (Finds.lift (bareDomain_returns text))
    intro domain _
    split
    · exact Finds.bind (Finds.answered _) fun _ _ => Finds.pure trivial
    · exact Finds.failure

theorem wordsHost_finds (outside : Outside) (words : Text) :
    Finds (wordsHost outside words) fun _ => True := by
  apply Finds.bind (Finds.lift (trimAddress_returns (trim words)))
  intro trimmed _
  dsimp only
  split
  · exact Finds.failure
  · apply Finds.bind (urlAndAuthority_finds outside _)
    intro (url, authority) _
    apply Finds.bind (Finds.lift (afterAt_returns authority))
    intro hostPart _
    split
    · exact Finds.failure
    · exact Finds.bind (Finds.answered _) fun _ _ => Finds.pure trivial

/-- Whether words name another site is always settled. -/
theorem disguisedHost_finds (outside : Outside) (words href : Text) :
    Finds (disguisedHost outside words href) fun _ => True := by
  apply Finds.bind (Finds.answered _)
  intro real _
  apply Finds.bind (wordsHost_finds outside words)
  intro said _
  split
  · exact Finds.pure trivial
  · split
    · exact Finds.pure trivial
    · split
      · exact Finds.pure trivial
      · exact Finds.failure

end Addresses

section Links

variable {outside : Outside} {source : Text} {place : ℕ}

theorem matchBracket_spec {opening closing : Char} {depth stop : ℕ} {rest : Text}
    (h : matchBracket opening closing depth rest place = some stop) :
    place ≤ stop ∧ stop < place + rest.length := by
  induction depth, rest, place using matchBracket.induct opening closing with
  | case1 depth place => simp [matchBracket] at h
  | case2 depth place => simp [matchBracket] at h
  | case3 depth c rest place ih =>
    rw [matchBracket] at h
    have := ih h
    simp only [List.length_cons]
    omega
  | case4 depth rest place hlast hescape ih =>
    rw [matchBracket.eq_4 _ _ _ _ _ _ hlast hescape, if_pos rfl] at h
    have := ih h
    rw [List.length_cons]
    omega
  | case5 depth rest place hdepth hlast hescape hne =>
    rw [matchBracket.eq_4 _ _ _ _ _ _ hlast hescape, if_neg hne, if_pos rfl, if_pos hdepth] at h
    have hstop := Option.some.inj h
    rw [List.length_cons]
    omega
  | case6 depth rest place hdepth hlast hescape hne ih =>
    rw [matchBracket.eq_4 _ _ _ _ _ _ hlast hescape, if_neg hne, if_pos rfl, if_neg hdepth] at h
    have := ih h
    rw [List.length_cons]
    omega
  | case7 depth rest place c hlast hescape hopening hclosing ih =>
    rw [matchBracket.eq_4 _ _ _ _ _ _ hlast hescape, if_neg hopening, if_neg hclosing] at h
    have := ih h
    rw [List.length_cons]
    omega

/-- The partner of a bracket stands after it. -/
theorem matchBracket_after {opening closing : Char} {stop : ℕ} (hopening : opening ≠ '\\')
    (hplace : source[place]? = some opening)
    (h : matchBracket opening closing 0 (source.drop place) place = some stop) :
    place < stop ∧ stop < source.length := by
  obtain ⟨hlt, hch⟩ := List.getElem?_eq_some_iff.mp hplace
  rw [List.drop_eq_getElem_cons hlt, hch,
    matchBracket.eq_4 _ _ _ _ _ _ (fun hc => absurd hc hopening)
    (fun _ _ hc => absurd hc hopening), if_pos rfl] at h
  have hstop := matchBracket_spec h
  rw [List.length_drop] at hstop
  omega

theorem matchLink_finds (houtside : outside.Serialises) {parse : Text → Run (List Inline)}
    (hparse : ∀ source, Returns (parse source) (Parsed true source))
    (hplace : source[place]? = some '[') :
    Finds (matchLink outside parse source place) (Fits false source place) := by
  apply Finds.bind (Finds.found fun stop hstop => matchBracket_after (by decide) hplace hstop)
  intro labelEnd hlabel
  split
  · exact Finds.failure
  · next hparen =>
    have hparen : source[labelEnd + 1]? = some '(' := not_not.mp hparen
    apply Finds.bind (Finds.found fun stop hstop => matchBracket_after (by decide) hparen hstop)
    intro targetEnd htarget
    apply Finds.bind (Finds.lift (slice_returns (by omega) htarget.2.le))
    intro target _
    apply Finds.bind (Finds.lift (withoutTitle_returns (trim target)))
    intro address _
    apply Finds.bind (Finds.found fun href hhref => safeHref_kept houtside hhref)
    intro href hhref
    apply Finds.bind (Finds.lift (slice_returns (by omega) hlabel.2.le))
    intro label hslice
    apply Finds.bind (Finds.lift (hparse label))
    intro children hchildren
    have hpart : label.Sublist ((source.take (targetEnd + 1)).drop place) := by
      rw [hslice]
      exact part_sublist (by omega) (by omega)
    apply Finds.pure
    exact ⟨by show place < targetEnd + 1; omega, by show targetEnd + 1 ≤ _; omega,
      by rw [SoundNode]; exact ⟨rfl, hhref, hchildren.sound⟩,
      by rw [flattenNode]; exact hchildren.words.trans hpart⟩

theorem toLower_slash {c : Char} (h : c.toLower = '/') : c = '/' := by
  unfold Char.toLower at h
  split at h
  · next hupper =>
    -- A capital's small letter is no slash.
    have hval := congrArg Char.val h
    simp only at hval
    have hge : 65 ≤ c.val.toNat := hupper.1
    have hle : c.val.toNat ≤ 90 := hupper.2
    have hnat : (c.val.toNat + 32) % 2 ^ 32 = 47 := congrArg UInt32.toNat hval
    omega
  · exact h

theorem mem_of_startsWithIgnoringCase {rest pattern : Text}
    (h : startsWithIgnoringCase rest pattern = true)
    (hslash : '/' ∈ pattern) : '/' ∈ rest.take pattern.length := by
  induction pattern generalizing rest with
  | nil => exact absurd hslash (by simp)
  | cons expected pattern ih =>
    cases rest with
    | nil => simp [startsWithIgnoringCase] at h
    | cons c rest =>
      rw [startsWithIgnoringCase, Bool.and_eq_true, decide_eq_true_iff] at h
      rw [List.length_cons, List.take_succ_cons]
      rcases List.mem_cons.mp hslash with hfirst | hmore
      · have hc : c = '/' := toLower_slash (by rw [h.1, ← hfirst]; decide)
        rw [hc]
        exact List.mem_cons_self
      · exact List.mem_cons_of_mem c (ih h.2 hmore)

/-- Where an autolink may start, its scheme ends in slashes. -/
theorem scheme_slash {rest : Text} {scheme : ℕ}
    (h : (if startsWithIgnoringCase rest "https://".toList then some 8
      else if startsWithIgnoringCase rest "http://".toList then some 7 else none) = some scheme) :
    '/' ∈ rest.take scheme := by
  split at h
  · next hstarts =>
    rw [← Option.some.inj h]
    exact mem_of_startsWithIgnoringCase hstarts (by decide)
  · split at h
    · next hstarts =>
      rw [← Option.some.inj h]
      exact mem_of_startsWithIgnoringCase hstarts (by decide)
    · exact absurd h (by simp)

theorem matchAutolink_finds (houtside : outside.Serialises) (hplace : place < source.length) :
    Finds (matchAutolink outside source place) (Fits false source place) := by
  apply Finds.bind (Finds.found fun scheme hscheme => scheme_slash hscheme)
  intro scheme hscheme
  apply Finds.bind (Finds.lift (slice_returns hplace.le le_rfl))
  intro rest hrest
  rw [List.take_length] at hrest
  dsimp only
  generalize hlength :
    (rest.takeWhile fun c => !(isWhitespace c || c == '<' || c == '>')).length = length
  have hle : length ≤ source.length - place := by
    have h := (List.takeWhile_sublist (l := rest) fun c =>
      !(isWhitespace c || c == '<' || c == '>')).length_le
    rwa [hlength, hrest, List.length_drop] at h
  split
  · exact Finds.failure
  · next hlong =>
    apply Finds.bind (Finds.lift (slice_returns (by omega) (by omega)))
    intro taken htaken
    have htake : taken = rest.take length := by
      rw [htaken, hrest, List.drop_take, Nat.add_sub_cancel_left]
    have hslash : '/' ∈ taken := by
      rw [htake, hrest]
      exact (List.take_sublist_take_left (not_le.mp hlong).le).subset hscheme
    apply Finds.bind (Finds.lift (trimAddress_returns taken))
    intro raw hraw
    have hpositive : 0 < raw.length := List.length_pos_of_mem (hraw.2 hslash)
    have hshort : raw.length ≤ length := by
      have h := hraw.1.length_le
      rw [htake, List.length_take] at h
      omega
    have hpart : raw = (source.take (place + raw.length)).drop place := by
      have h := List.prefix_iff_eq_take.mp hraw.1
      rw [htake, List.take_take, min_eq_left hshort, hrest] at h
      rw [List.drop_take, Nat.add_sub_cancel_left]
      exact h
    apply Finds.bind (Finds.found fun href hhref => safeHref_kept houtside hhref)
    intro href hhref
    apply Finds.pure
    refine ⟨by show place < place + raw.length; omega, by show place + raw.length ≤ _; omega, ?_,
      ?_⟩
    · rw [SoundNode]
      exact ⟨rfl, hhref, Sound.one (by rw [SoundNode]; trivial)⟩
    · rw [flattenNode, flattenInline_one, flattenNode]
      rw [← hpart]

end Links

section Emphasis

variable {outside : Outside} {source : Text} {place : ℕ} {inLink : Bool}

theorem startsWithAt_inside {pattern : Text} (h : startsWithAt source place pattern = true) :
    place + pattern.length ≤ source.length := by
  rw [startsWithAt, Bool.and_eq_true, decide_eq_true_iff] at h
  exact h.1

theorem findClose_finds (outside : Outside) (source opener : Text) (start : ℕ) (hstart : 1 ≤ start)
    (hopener : 1 ≤ opener.length) :
    Finds (findClose outside source opener start) fun close => start ≤ close ∧
      close + opener.length ≤ source.length := by
  apply Finds.firstM
  intro search hsearch
  have hstart := (List.mem_range'_1.mp hsearch).1
  split
  · next hstarts =>
    have hinside := startsWithAt_inside hstarts
    apply Finds.bind (Finds.lift (index_returns (by omega)))
    intro before _
    split
    · exact Finds.pure ⟨hstart, hinside⟩
    · exact Finds.failure
  · exact Finds.failure

theorem matchOpener_finds {parse : Text → Run (List Inline)}
    (hparse : ∀ source, Returns (parse source) (Parsed inLink source)) (before : Option Char)
    (opener : Text)
    (kind : Emphasis) (hopener : 1 ≤ opener.length) :
    Finds (matchOpener outside parse source place before opener kind) (Fits inLink source
      place) := by
  unfold matchOpener
  dsimp only
  split
  · exact Finds.failure
  · split
    · exact Finds.failure
    · split
      · exact Finds.failure
      · apply Finds.bind (findClose_finds outside source opener _ (by omega) hopener)
        intro close hclose
        apply Finds.bind (Finds.lift (slice_returns (by omega) (by omega)))
        intro inner hinner
        apply Finds.bind (Finds.lift (hparse inner))
        intro children hchildren
        have hpart : inner.Sublist ((source.take (close + opener.length)).drop place) := by
          rw [hinner]
          exact part_sublist (by omega) (by omega)
        have hnode : SoundNode inLink (kind.node children) ∧
            flattenNode (kind.node children) = flattenInline children := by
          cases kind <;> exact ⟨by
            rw [Emphasis.node, SoundNode]; exact hchildren.sound, by rw [Emphasis.node,
              flattenNode]⟩
        apply Finds.pure
        exact ⟨by show place < close + opener.length; omega, hclose.2, hnode.1,
          by rw [hnode.2]; exact hchildren.words.trans hpart⟩

theorem matchEmphasis_finds {parse : Text → Run (List Inline)}
    (hparse : ∀ source, Returns (parse source) (Parsed inLink source)) (before : Option Char) :
    Finds (matchEmphasis outside parse source place before) (Fits inLink source place) := by
  apply Finds.firstM
  intro (opener, kind) hchoice
  have hlengths : ∀ choice ∈ emphasis, 1 ≤ choice.1.length := by decide
  exact matchOpener_finds hparse before opener kind (hlengths _ hchoice)

end Emphasis

section Turns

variable {outside : Outside} {source : Text} {place : ℕ} {inLink : Bool}

/-- Whatever starts at a place fits there. -/
theorem matchNode_finds (houtside : outside.Serialises)
    {parse : Option (Bool → Text → Run (List Inline))}
    (hparse : ∀ read ∈ parse, ∀ inLink source, Returns (read inLink source) (Parsed inLink source))
    {ch : Char}
    (hplace : source[place]? = some ch) (before : Option Char) :
    Finds (matchNode outside parse inLink source place ch before) (Fits inLink source place) := by
  have hlt := (List.getElem?_eq_some_iff.mp hplace).1
  unfold matchNode
  apply Finds.orElse
  · split
    · next hch => exact matchCode_finds inLink (hch ▸ hplace)
    · exact Finds.failure
  apply Finds.orElse
  · split
    · next read =>
      split
      · next hch =>
        have hinLink : inLink = false := by simpa using hch.2
        rw [hinLink]
        exact matchLink_finds houtside (hparse read rfl true) (hch.1 ▸ hplace)
      · exact Finds.failure
    · exact Finds.failure
  apply Finds.orElse
  · split
    · next read => exact matchEmphasis_finds (hparse read rfl inLink) before
    · exact Finds.failure
  · split
    · next hch =>
      have hinLink : inLink = false := by simpa using hch.2.1
      rw [hinLink]
      exact matchAutolink_finds houtside hlt
    · exact Finds.failure

theorem settle_sound {nodes : List Inline} (h : Sound inLink nodes) (plain : Text) :
    Sound inLink (settle nodes plain) := by
  unfold settle
  split
  · exact h
  · exact h.append (Sound.one (by rw [SoundNode]; trivial))

theorem flatten_settle (nodes : List Inline) (plain : Text) :
    flattenInline (settle nodes plain) = flattenInline nodes ++ plain := by
  unfold settle
  split
  · next hplain => rw [List.isEmpty_iff.mp hplain, List.append_nil]
  · rw [flattenInline_append, flattenInline_one, flattenNode]

theorem escapedAt_next {ch escaped : Char} (h : escapedAt source place ch = some escaped) :
    source[place + 1]? = some escaped := by
  unfold escapedAt at h
  split at h
  · exact (Option.filter_eq_some_iff.mp h).1
  · exact absurd h (by simp)

/-- A character that is passed may be held after what was passed before it. -/
theorem pass_one {words plain : Text} {c : Char} {i next : ℕ}
    (hwords : (words ++ plain).Sublist (source.take place))
    (hplace : place ≤ i) (hc : source[i]? = some c) (hnext : i < next) :
    (words ++ (plain ++ [c])).Sublist (source.take next) := by
  have hpart : [c].Sublist ((source.take next).drop place) := by
    apply List.singleton_sublist.mpr
    have hat : ((source.take next).drop place)[i - place]? = some c := by
      rw [List.getElem?_drop, Nat.add_sub_cancel' hplace, List.getElem?_take_of_lt hnext]
      exact hc
    exact List.mem_of_getElem? hat
  rw [← List.append_assoc, ← take_append_part (hplace.trans hnext.le)]
  exact hwords.append hpart

/-- The loop ends within as many turns as there are characters left, since each turn passes one.
What it holds so far is among the characters it has passed. -/
theorem parseTurns_returns {matched : ℕ → Char → Option Char → Tried (Inline × ℕ)}
    (hmatched : ∀ place ch before, source[place]? = some ch →
      Finds (matched place ch before) (Fits inLink source place))
    {turns : ℕ} {nodes : List Inline} {plain : Text} (hturns : source.length ≤ place + turns)
    (hsound : Sound inLink nodes)
    (hwords : (flattenInline nodes ++ plain).Sublist (source.take place)) :
    Returns (parseTurns matched source turns nodes plain place) (Parsed inLink source) := by
  induction turns generalizing nodes plain place with
  | zero =>
    rw [parseTurns, if_neg (by omega)]
    refine Returns.pure ⟨settle_sound hsound plain, ?_⟩
    rw [flatten_settle]
    exact hwords.trans (List.take_sublist place source)
  | succ turns ih =>
    rw [parseTurns]
    split
    · next hplace =>
      apply Returns.bind (index_returns hplace)
      intro ch _ hch
      split
      · next escaped hescaped =>
        have hnext := escapedAt_next hescaped
        exact ih (by omega) hsound (pass_one hwords (by omega) hnext (by omega))
      · apply Returns.bind (hmatched place ch _ hch)
        intro found _ hfound
        split
        · next node next _ =>
          have hfits := hfound (node, next) rfl
          apply ih _ ((settle_sound hsound plain).append (Sound.one hfits.sound))
          · rw [flattenInline_append, flatten_settle, flattenInline_one, List.append_nil,
              ← take_append_part hfits.onward.le]
            exact hwords.append hfits.words
          · have := hfits.onward
            omega
        · exact ih (by omega) hsound (pass_one hwords le_rfl hch (by omega))
    · refine Returns.pure ⟨settle_sound hsound plain, ?_⟩
      rw [flatten_settle]
      exact hwords.trans (List.take_sublist place source)

/-- What the parser makes of a text, however deep it may still nest. -/
theorem parseChars_returns (houtside : outside.Serialises) (left : ℕ) (inLink : Bool)
    (source : Text) :
    Returns (parseChars outside left inLink source) (Parsed inLink source) := by
  induction left generalizing inLink source with
  | zero =>
    apply parseTurns_returns _ (by omega) (by rw [Sound]; trivial)
      (by rw [flattenInline]; exact List.nil_sublist _)
    intro place ch before hplace
    exact matchNode_finds houtside (fun read hread => absurd hread (by simp)) hplace before
  | succ left ih =>
    apply parseTurns_returns _ (by omega) (by rw [Sound]; trivial)
      (by rw [flattenInline]; exact List.nil_sublist _)
    intro place ch before hplace
    apply matchNode_finds houtside _ hplace before
    intro read hread inLink source
    rw [← Option.mem_some_iff.mp hread]
    exact ih inLink source

theorem parseInline_returns (houtside : outside.Serialises) (source : Text) :
    Returns (parseInline outside source) (Parsed false source) :=
  parseChars_returns houtside maxInlineDepth false source

end Turns

end Linger.ArchiveBody
