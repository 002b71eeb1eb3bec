import Linger.ArchiveBodyInline

/-! What a body's lines are parsed into: the parser always returns, and the blocks' words are among
the body's characters, in their order. -/
namespace Linger.ArchiveBody
open CheckedText
open Names (Text trim isWhitespace)

mutual

/-- What a block says. -/
def blockWords : Block → Text
  | .paragraph children => flattenInline children
  | .quote children => blocksWords children
  | .code words => words
  | .list _ _ items => (items.map flattenInline).flatten

def blocksWords : List Block → Text
  | [] => []
  | block :: blocks => blockWords block ++ blocksWords blocks

end

mutual

def SoundBlock : Block → Prop
  | .paragraph children => Sound false children
  | .quote children => SoundBlocks children
  | .code _ => True
  | .list _ _ items => ∀ item ∈ items, Sound false item

def SoundBlocks : List Block → Prop
  | [] => True
  | block :: blocks => SoundBlock block ∧ SoundBlocks blocks

end

section Lines

theorem indented_finds (line : Text) : Finds (indented line) fun rest => rest.Sublist line := by
  unfold indented
  dsimp only
  split
  · have hspace : ∀ c : Char, (c == ' ') = true → c.utf8Size = 1 := by
      intro c hc
      rw [eq_of_beq hc]
      rfl
    have hspaces :
        byteLen line - byteLen (trimStartSpaces line) = (line.takeWhile (· == ' ')).length := by
      have hlength : byteLen (line.takeWhile (· == ' ')) = (line.takeWhile (· == ' ')).length := by
        apply byteLen_of_ascii
        intro c hc
        have hc := List.mem_takeWhile_imp hc
        exact hspace c hc
      have hline :
          byteLen line = byteLen (line.takeWhile (· == ' ')) + byteLen (trimStartSpaces line) := by
        rw [← byteLen_append, trimStartSpaces, List.takeWhile_append_dropWhile]
      omega
    rw [hspaces]
    have hcut := takeWhile_cut hspace line
    exact Finds.lift ⟨_, hcut.2, List.dropWhile_sublist _⟩
  · exact Finds.failure

/-- A fence's run takes as many bytes as it has characters. -/
theorem fenceRun_cut {rest : Text} {fence : Char × ℕ} (h : fenceRun rest = some fence) :
    Returns (trim <$> bytesFrom rest fence.2) fun _ => True := by
  cases rest with
  | nil => simp [fenceRun] at h
  | cons first rest =>
    rw [fenceRun] at h
    split at h
    · exact absurd h (by simp)
    · next hfirst =>
      dsimp only at h
      split at h
      · rw [← Option.some.inj h]
        have hbyte : first.utf8Size = 1 := by
          have hfence : first = '`' ∨ first = '~' := by
            by_contra hne
            exact hfirst (not_or.mp hne)
          rcases hfence with rfl | rfl <;> rfl
        have hrun : ∀ c : Char, (c == first) = true → c.utf8Size = 1 := by
          intro c hc
          rw [eq_of_beq hc]
          exact hbyte
        exact Returns.map ⟨_, (takeWhile_cut hrun (first :: rest)).2, trivial⟩
      · exact absurd h (by simp)

theorem fenceOpen_finds (line : Text) : Finds (fenceOpen line) fun _ => True := by
  apply Finds.bind (indented_finds line)
  intro rest _
  apply Finds.bind (Finds.found fun fence hfence => fenceRun_cut hfence)
  intro (ch, run) hcut
  apply Finds.bind (Finds.lift hcut)
  intro info _
  exact Finds.guard fun _ => trivial

theorem fenceClose_finds (line : Text) : Finds (fenceClose line) fun _ => True := by
  apply Finds.bind (indented_finds line)
  intro rest _
  apply Finds.bind (Finds.found fun fence hfence => fenceRun_cut hfence)
  intro (ch, run) hcut
  apply Finds.bind (Finds.lift hcut)
  intro after _
  exact Finds.guard fun _ => trivial

theorem stripFirst_sublist {first : Char} {text rest : Text}
    (h : stripFirst first text = some rest) :
    rest.Sublist text := by
  cases text with
  | nil => simp [stripFirst] at h
  | cons c text =>
    rw [stripFirst] at h
    split at h
    · rw [← Option.some.inj h]
      exact List.sublist_cons_self c text
    · exact absurd h (by simp)

theorem orElse_cases {answer other : Option Text} {text : Text}
    (h : (answer.orElse fun _ => other) = some text) :
    answer = some text ∨ other = some text := by
  cases answer with
  | none => exact Or.inr h
  | some first => exact Or.inl h

theorem quoteLine_finds (line : Text) : Finds (quoteLine line) fun text => text.Sublist line := by
  apply Finds.bind (indented_finds line)
  intro rest hrest
  apply Finds.bind (Finds.found fun text htext => (stripFirst_sublist htext).trans hrest)
  intro text htext
  apply Finds.pure
  cases hspace : stripFirst ' ' text with
  | none => exact htext
  | some after => exact (stripFirst_sublist hspace).trans htext

theorem bullet_finds (line : Text) : Finds (bullet line) fun text => text.Sublist line := by
  apply Finds.bind (indented_finds line)
  intro rest hrest
  have hstrip : ∀ text, ((stripFirst '-' rest).orElse fun _ => (stripFirst '*' rest).orElse fun _ =>
      stripFirst '+' rest) = some text → text.Sublist line := by
    intro text htext
    rcases orElse_cases htext with h | h
    · exact (stripFirst_sublist h).trans hrest
    · rcases orElse_cases h with h | h <;> exact (stripFirst_sublist h).trans hrest
  apply Finds.bind (Finds.found hstrip)
  intro text htext
  exact Finds.guard fun _ => (List.dropWhile_sublist _).trans htext

theorem isDigit_size {c : Char} (h : c.isDigit = true) : c.utf8Size = 1 := by
  have hle : c.toNat ≤ 57 := (Char.isDigit_iff_toNat.mp h).2
  rw [Char.utf8Size, if_pos]
  exact UInt32.le_iff_toNat_le.mpr (hle.trans (by decide))

theorem numbered_finds (line : Text) : Finds (numbered line) fun item => item.2.Sublist line := by
  apply Finds.bind (indented_finds line)
  intro rest hrest
  have hcut := takeWhile_cut (fun c hc => isDigit_size hc) rest
  have hfrom : Returns (bytesFrom rest (rest.takeWhile Char.isDigit).length) fun after =>
      after.Sublist rest :=
    ⟨_, hcut.2, List.dropWhile_sublist _⟩
  have hto : Returns (bytesTo rest (rest.takeWhile Char.isDigit).length) fun _ => True :=
    ⟨_, hcut.1, trivial⟩
  dsimp only
  split
  · exact Finds.failure
  · apply Finds.bind (Finds.lift hfrom)
    intro after hafter
    have hstrip :
        ∀ text, ((stripFirst '.' after).orElse fun _ => stripFirst ')' after) = some text →
        text.Sublist line := by
      intro text htext
      rcases orElse_cases htext with h | h <;>
        exact (stripFirst_sublist h).trans (hafter.trans hrest)
    apply Finds.bind (Finds.found hstrip)
    intro text htext
    split
    · exact Finds.failure
    · apply Finds.bind (Finds.lift hto)
      intro typed _
      apply Finds.bind (Finds.answered _)
      intro number _
      exact Finds.pure ((List.dropWhile_sublist _).trans htext)

theorem isSome_returns {α : Type} {tried : Tried α} {holds : α → Prop} (h : Finds tried holds) :
    Returns (Tried.isSome tried) fun some => tried.run = .ok none → some = false := by
  obtain ⟨found, hrun, -⟩ := h
  refine ⟨found.isSome, by rw [Tried.isSome, hrun]; rfl, fun hnone => ?_⟩
  rw [Except.ok.inj (hrun.symm.trans hnone)]
  rfl

/-- Whether a line ends a paragraph is always settled; one that starts nothing does not. -/
theorem startsBlock_returns (line : Text) :
    Returns (startsBlock line) fun starts => (fenceOpen line).run = .ok none →
      (quoteLine line).run = .ok none →
      (bullet line).run = .ok none → (numbered line).run = .ok none → starts = false := by
  apply Returns.bind (isSome_returns (fenceOpen_finds line))
  intro fence _ hfence
  split
  · next h => exact Returns.pure fun hnone => absurd (hfence hnone) (by rw [h]; decide)
  · apply Returns.bind (isSome_returns (quoteLine_finds line))
    intro quote _ hquote
    split
    · next h => exact Returns.pure fun _ hnone => absurd (hquote hnone) (by rw [h]; decide)
    · apply Returns.bind (isSome_returns (bullet_finds line))
      intro item _ hitem
      split
      · next h => exact Returns.pure fun _ _ hnone => absurd (hitem hnone) (by rw [h]; decide)
      · exact Returns.mono (isSome_returns (numbered_finds line)) fun _ h _ _ _ hnone => h hnone

end Lines

section Blocks

variable {lines rest : List Text} {line : Text}

/-- A fence's body is lines of the message, one after the other. -/
theorem fenceBody_returns (ch : Char) (run : ℕ) (lines : List Text) :
    Returns (fenceBody ch run lines) fun taken => ∃ closing,
      lines = taken.1 ++ closing ++ taken.2 := by
  induction lines with
  | nil => exact Returns.pure ⟨[], rfl⟩
  | cons line rest ih =>
    have hgo : Returns (fenceBody ch run rest >>= fun taken => pure (line :: taken.1, taken.2))
        fun taken => ∃ closing, line :: rest = taken.1 ++ closing ++ taken.2 := by
      apply Returns.bind ih
      intro taken _ hclosing
      obtain ⟨closing, hrest⟩ := hclosing
      refine Returns.pure ⟨closing, ?_⟩
      rw [hrest]
      rfl
    apply Returns.bind (fenceClose_finds line)
    intro found _ _
    split
    · split
      · exact Returns.pure ⟨[line], rfl⟩
      · exact hgo
    · exact hgo

/-- The items taken are the texts of the lines they were taken from. -/
theorem takeItems_returns {α : Type} {read : Text → Tried α} {words : α → Text}
    (hread : ∀ line, Finds (read line) fun item => (words item).Sublist line) (lines : List Text) :
    Returns (takeItems read lines) fun taken =>
      ∃ used, lines = used ++ taken.2 ∧
        List.Forall₂ (fun item line => (words item).Sublist line) taken.1 used := by
  induction lines with
  | nil => exact Returns.pure ⟨[], rfl, List.Forall₂.nil⟩
  | cons line rest ih =>
    apply Returns.bind (hread line)
    intro found _ hfound
    split
    · next item _ =>
      apply Returns.bind ih
      intro (items, left) _ ⟨used, hrest, hitems⟩
      refine Returns.pure ⟨line :: used, ?_, List.Forall₂.cons (hfound item rfl) hitems⟩
      rw [hrest]
      rfl
    · exact Returns.pure ⟨[], rfl, List.Forall₂.nil⟩

/-- The line that begins as an item is taken. -/
theorem takeItems_nonempty {α : Type} {read : Text → Tried α} {item : α}
    {taken : List α × List Text}
    (hfirst : (read line).run = .ok (some item)) (h : takeItems read (line :: rest) = .ok taken) :
    taken.1 ≠ [] := by
  have hunfold : takeItems read (line :: rest) =
      takeItems read rest >>= fun taken => pure (item :: taken.1, taken.2) := by
    rw [takeItems, hfirst]
    rfl
  rw [hunfold] at h
  cases hrest : takeItems read rest with
  | error stop =>
    rw [hrest] at h
    exact absurd h (by simp [bind, Except.bind])
  | ok result =>
    rw [hrest] at h
    rw [← Except.ok.inj h]
    exact List.cons_ne_nil _ _

theorem takeParagraph_returns (lines : List Text) :
    Returns (takeParagraph lines) fun taken => lines = taken.1 ++ taken.2 := by
  induction lines with
  | nil => exact Returns.pure rfl
  | cons line rest ih =>
    rw [takeParagraph]
    split
    · exact Returns.pure rfl
    · apply Returns.bind (startsBlock_returns line)
      intro starts _ _
      split
      · exact Returns.pure rfl
      · apply Returns.bind ih
        intro (paragraph, left) _ hrest
        apply Returns.pure
        rw [hrest]
        rfl

theorem takeParagraph_nonempty {taken : List Text × List Text}
    (hblank : (trim line).isEmpty = false)
    (hstarts : startsBlock line = .ok false) (h : takeParagraph (line :: rest) = .ok taken) :
    taken.1 ≠ [] := by
  rw [takeParagraph, hblank, if_neg Bool.false_ne_true, hstarts] at h
  cases hrest : takeParagraph rest with
  | error stop =>
    have herror : (Except.error stop : Run (List Text × List Text)) = .ok taken := by
      rw [← h, hrest]
      rfl
    exact absurd herror (by simp)
  | ok result =>
    have hok : (.ok (line :: result.1, result.2) : Run (List Text × List Text)) = .ok taken := by
      rw [← h, hrest]
      rfl
    rw [← Except.ok.inj hok]
    exact List.cons_ne_nil _ _

/-- A block as it may come of the lines it was taken from. -/
structure Taken (lines : List Text) (taken : Block × List Text) : Prop where
  sound : SoundBlock taken.1
  words : ∃ used, used ≠ [] ∧ lines = used ++ taken.2 ∧ (blockWords taken.1).Sublist (join used)

theorem used_ne_nil {α : Type} {items : List α} {used : List Text} {fits : α → Text → Prop}
    (h : List.Forall₂ fits items used) (hitems : items ≠ []) : used ≠ [] := by
  cases h with
  | nil => exact absurd rfl hitems
  | cons _ _ => exact List.cons_ne_nil _ _

/-- The items of a list, each parsed by itself. -/
theorem items_parsed {α : Type} {words : α → Text} {items : List α} {used : List Text}
    {nodes : List (List Inline)}
    (hused : List.Forall₂ (fun item line => (words item).Sublist line) items used)
    (hnodes : List.Forall₂ (fun item nodes => Parsed false (words item) nodes) items nodes) :
    (∀ item ∈ nodes, Sound false item) ∧
      ((nodes.map flattenInline).flatten).Sublist (join used) := by
  suffices h : (∀ item ∈ nodes, Sound false item) ∧
      List.Forall₂ List.Sublist (nodes.map flattenInline) used from
    ⟨h.1, (flatten_sublist_join _).trans (join_sublist h.2)⟩
  induction hused generalizing nodes with
  | nil =>
    cases hnodes with
    | nil => exact ⟨by simp, List.Forall₂.nil⟩
  | cons hfirst _ ih =>
    cases hnodes with
    | cons hparsed hrest =>
      have hmore := ih hrest
      exact ⟨List.forall_mem_cons.mpr ⟨hparsed.sound, hmore.1⟩,
        List.Forall₂.cons (hparsed.words.trans hfirst) hmore.2⟩

/-- A block takes one line or more, and says what those lines say. -/
theorem takeBlock_returns {outside : Outside} (houtside : outside.Serialises)
    {quoted : List Text → Run Block}
    (hquoted : ∀ inner, Returns (quoted inner) fun block => SoundBlock block ∧
      (blockWords block).Sublist (join inner))
    (hblank : (trim line).isEmpty = false) :
    Returns (takeBlock outside quoted line rest) (Taken (line :: rest)) := by
  apply Returns.bind (fenceOpen_finds line)
  intro fence hfence _
  split
  · apply Returns.bind (fenceBody_returns _ _ rest)
    intro (body, left) _ ⟨closing, hrest⟩
    refine Returns.pure ⟨by rw [SoundBlock]; trivial,
      line :: (body ++ closing), by simp, by rw [hrest]; rfl, ?_⟩
    rw [blockWords]
    have hbody : (join body ++ join closing).Sublist (join (body ++ closing)) :=
      join_append_sublist body closing
    have hall :
        (join [line] ++ join (body ++ closing)).Sublist (join ([line] ++ (body ++ closing))) :=
      join_append_sublist [line] (body ++ closing)
    exact (List.sublist_append_left _ _).trans
      (hbody.trans ((List.sublist_append_right _ _).trans hall))
  apply Returns.bind (quoteLine_finds line)
  intro quote hquote _
  split
  · next text =>
    apply Returns.bind (@takeItems_returns _ _ id quoteLine_finds (line :: rest))
    intro (inner, left) htaken ⟨used, hlines, hinner⟩
    have hnonempty := takeItems_nonempty hquote htaken
    apply Returns.bind (hquoted inner)
    intro block _ ⟨hsound, hwords⟩
    exact Returns.pure ⟨hsound, used, used_ne_nil hinner hnonempty, hlines,
      hwords.trans (join_sublist hinner)⟩
  apply Returns.bind (bullet_finds line)
  intro item hitem _
  split
  · next text =>
    apply Returns.bind (@takeItems_returns _ _ id bullet_finds (line :: rest))
    intro (texts, left) htaken ⟨used, hlines, htexts⟩
    have hnonempty := takeItems_nonempty hitem htaken
    apply Returns.bind (Returns.mapM fun text _ => parseInline_returns houtside text)
    intro nodes _ hnodes
    have hparsed := items_parsed htexts hnodes
    exact Returns.pure ⟨by rw [SoundBlock]; exact hparsed.1, used, used_ne_nil htexts hnonempty,
      hlines, by rw [blockWords]; exact hparsed.2⟩
  apply Returns.bind (numbered_finds line)
  intro number hnumber _
  split
  · next start text =>
    apply Returns.bind (@takeItems_returns _ _ Prod.snd numbered_finds (line :: rest))
    intro (items, left) htaken ⟨used, hlines, hitems⟩
    have hnonempty := takeItems_nonempty hnumber htaken
    apply Returns.bind (Returns.mapM fun item _ => parseInline_returns houtside item.2)
    intro nodes _ hnodes
    have hparsed := items_parsed hitems hnodes
    exact Returns.pure ⟨by rw [SoundBlock]; exact hparsed.1, used, used_ne_nil hitems hnonempty,
      hlines, by rw [blockWords]; exact hparsed.2⟩
  · obtain ⟨starts, hstarts, hfalse⟩ := startsBlock_returns line
    rw [hfalse hfence hquote hitem hnumber] at hstarts
    apply Returns.bind (takeParagraph_returns (line :: rest))
    intro (paragraph, left) htaken hlines
    have hnonempty := takeParagraph_nonempty hblank hstarts htaken
    apply Returns.bind (parseInline_returns houtside (join paragraph))
    intro nodes _ hnodes
    exact Returns.pure ⟨by rw [SoundBlock]; exact hnodes.sound, paragraph, hnonempty, hlines,
      by rw [blockWords]; exact hnodes.words⟩

/-- What a parser makes of lines. -/
structure ParsedLines (lines : List Text) (blocks : List Block) : Prop where
  sound : SoundBlocks blocks
  words : (blocksWords blocks).Sublist (join lines)

theorem ParsedLines.nil : ParsedLines [] [] :=
  ⟨by rw [SoundBlocks]; trivial, by rw [blocksWords]; exact List.nil_sublist _⟩

/-- A line before the others adds nothing that must show. -/
theorem ParsedLines.skip {blocks : List Block} (h : ParsedLines rest blocks) (line : Text) :
    ParsedLines (line :: rest) blocks := by
  refine ⟨h.sound, h.words.trans ?_⟩
  exact (List.sublist_append_right (join [line]) (join rest)).trans
    (join_append_sublist [line] rest)

theorem ParsedLines.cons {blocks : List Block} {taken : Block × List Text}
    (htaken : Taken lines taken)
    (h : ParsedLines taken.2 blocks) : ParsedLines lines (taken.1 :: blocks) := by
  obtain ⟨used, -, hlines, hwords⟩ := htaken.words
  refine ⟨by rw [SoundBlocks]; exact ⟨htaken.sound, h.sound⟩, ?_⟩
  rw [blocksWords, hlines]
  exact (hwords.append h.words).trans (join_append_sublist used taken.2)

/-- The loop ends within as many turns as there are lines, since each turn passes one. -/
theorem blockTurns_returns {outside : Outside} (houtside : outside.Serialises)
    {quoted : List Text → Run Block}
    (hquoted : ∀ inner, Returns (quoted inner) fun block => SoundBlock block ∧
      (blockWords block).Sublist (join inner))
    {turns : ℕ} (hturns : lines.length ≤ turns) :
    Returns (blockTurns outside quoted turns lines) (ParsedLines lines) := by
  induction turns generalizing lines with
  | zero =>
    rw [List.length_eq_zero_iff.mp (Nat.le_zero.mp hturns), blockTurns]
    exact Returns.pure ParsedLines.nil
  | succ turns ih =>
    cases lines with
    | nil =>
      rw [blockTurns]
      exact Returns.pure ParsedLines.nil
    | cons line rest =>
      rw [List.length_cons] at hturns
      rw [blockTurns]
      split
      · exact Returns.mono (ih (by omega)) fun blocks h => h.skip line
      · next hblank =>
        apply Returns.bind (takeBlock_returns houtside hquoted (Bool.eq_false_iff.mpr hblank))
        intro (block, left) _ htaken
        have hleft : left.length ≤ turns := by
          obtain ⟨used, hused, hlines, -⟩ := htaken.words
          have hlength := congrArg List.length hlines
          simp only [List.length_append, List.length_cons] at hlength
          have := List.length_pos_of_ne_nil hused
          omega
        apply Returns.bind (ih hleft)
        intro blocks _ hblocks
        exact Returns.pure (ParsedLines.cons htaken hblocks)

/-- What the parser makes of lines, however deep it may still nest. -/
theorem parseBlocks_returns {outside : Outside} (houtside : outside.Serialises) (left : ℕ)
    (lines : List Text) :
    Returns (parseBlocks outside left lines) (ParsedLines lines) := by
  induction left generalizing lines with
  | zero =>
    apply blockTurns_returns houtside _ le_rfl
    intro inner
    apply Returns.map
    exact Returns.mono (parseInline_returns houtside (join inner)) fun nodes h =>
      ⟨by rw [SoundBlock]; exact h.sound, by rw [blockWords]; exact h.words⟩
  | succ left ih =>
    apply blockTurns_returns houtside _ le_rfl
    intro inner
    apply Returns.map
    exact Returns.mono (ih inner) fun blocks h =>
      ⟨by rw [SoundBlock]; exact h.sound, by rw [blockWords]; exact h.words⟩

end Blocks

end Linger.ArchiveBody
