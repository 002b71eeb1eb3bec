import Mathlib.Algebra.GroupWithZero.Nat
import Mathlib.Data.List.TakeWhile
import Mathlib.Tactic.Common

/-! Code that cuts lists by position and texts by byte and can be stopped for it: the position lies
outside what is cut, or inside a character. Beside the cuts stand the rules by which such code is
shown to return. -/
namespace CheckedText

universe u v
variable {α : Type u} {β : Type u}

/-- Why a piece of code never returned: a position out of range, or a loop that was still going when
its turns were used up. -/
inductive Stop
  | outOfRange
  | turns
deriving DecidableEq

abbrev Run := Except Stop

/-- Code that may also return without what it was to find. -/
abbrev Tried := OptionT Run

section Rules

/-- The code returns, and what it returns is as it should be. -/
def Returns (run : Run α) (holds : α → Prop) : Prop := ∃ value, run = .ok value ∧ holds value

/-- The code returns, and what it found, if it found anything, is as it should be. -/
def Finds (tried : Tried α) (holds : α → Prop) : Prop :=
  Returns tried.run fun found => ∀ value, found = some value → holds value

variable {run : Run α} {tried other : Tried α} {holds kept : α → Prop} {next : α →
  Run β} {further : α → Tried β}
  {after : β → Prop} {value : α}

theorem Returns.pure (h : holds value) : Returns (Pure.pure value) holds := ⟨value, rfl, h⟩

theorem Returns.mono (h : Returns run holds) (hmono : ∀ value, holds value → kept value) :
    Returns run kept := by
  obtain ⟨value, hrun, hvalue⟩ := h
  exact ⟨value, hrun, hmono value hvalue⟩

/-- One piece of code after another; that the first gave what the second works on may be used. -/
theorem Returns.bind (h : Returns run holds)
    (hnext : ∀ value, run = .ok value → holds value → Returns (next value) after) :
    Returns (run >>= next) after := by
  obtain ⟨value, hrun, hvalue⟩ := h
  obtain ⟨result, hresult, hafter⟩ := hnext value hrun hvalue
  refine ⟨result, ?_, hafter⟩
  rw [hrun]
  exact hresult

theorem Returns.map {f : α → β} (h : Returns run fun value => after (f value)) :
    Returns (f <$> run) after := by
  obtain ⟨value, hrun, hvalue⟩ := h
  exact ⟨f value, by rw [hrun]; rfl, hvalue⟩

/-- One piece of code for each of a list. -/
theorem Returns.mapM {γ : Type u} {f : γ → Run α} {holds : γ → α → Prop} {choices : List γ}
    (h : ∀ choice ∈ choices, Returns (f choice) (holds choice)) :
    Returns (choices.mapM f) fun results => List.Forall₂ holds choices results := by
  induction choices with
  | nil => exact Returns.pure List.Forall₂.nil
  | cons choice choices ih =>
    rw [List.mapM_cons]
    apply Returns.bind (h choice List.mem_cons_self)
    intro result _ hresult
    apply Returns.bind (ih fun c hc => h c (List.mem_cons_of_mem choice hc))
    intro results _ hresults
    exact Returns.pure (List.Forall₂.cons hresult hresults)

theorem Finds.pure (h : holds value) : Finds (Pure.pure value) holds := by
  refine ⟨some value, rfl, fun found hfound => ?_⟩
  rwa [← Option.some.inj hfound]

theorem Finds.failure : Finds (failure : Tried α) holds := ⟨none, rfl, by simp⟩

theorem Finds.lift (h : Returns run holds) : Finds (OptionT.lift run) holds := by
  obtain ⟨value, hrun, hvalue⟩ := h
  refine ⟨some value, ?_, fun found hfound => ?_⟩
  · rw [hrun]
    rfl
  · rwa [← Option.some.inj hfound]

theorem Finds.bind (h : Finds tried holds)
    (hfurther : ∀ value, holds value → Finds (further value) after) :
    Finds (tried >>= further) after := by
  obtain ⟨found, hrun, hfound⟩ := h
  cases found with
  | none => exact ⟨none, by rw [OptionT.run_bind, hrun]; rfl, by simp⟩
  | some value =>
    obtain ⟨result, hresult, hafter⟩ := hfurther value (hfound value rfl)
    refine ⟨result, ?_, hafter⟩
    rw [OptionT.run_bind, hrun]
    exact hresult

theorem Finds.orElse (h : Finds tried holds) (hother : Finds other holds) :
    Finds (tried <|> other) holds := by
  obtain ⟨found, hrun, hfound⟩ := h
  cases found with
  | none =>
    obtain ⟨result, hresult, hafter⟩ := hother
    refine ⟨result, ?_, hafter⟩
    rw [OptionT.run_orElse, hrun]
    exact hresult
  | some value => exact ⟨some value, by rw [OptionT.run_orElse, hrun]; rfl, hfound⟩

theorem Finds.firstM {γ : Type v} {f : γ → Tried α} {choices : List γ}
    (h : ∀ choice ∈ choices, Finds (f choice) holds) : Finds (choices.firstM f) holds := by
  induction choices with
  | nil => exact Finds.failure
  | cons choice choices ih =>
    exact Finds.orElse (h choice List.mem_cons_self)
      (ih fun c hc => h c (List.mem_cons_of_mem choice hc))

/-- An answer that is already there. -/
def found (answer : Option α) : Tried α := OptionT.mk (Pure.pure answer)

theorem Finds.found {answer : Option α} (h : ∀ value, answer = some value → holds value) :
    Finds (found answer) holds := ⟨answer, rfl, h⟩

/-- That an answer is there or not says nothing against returning. -/
theorem Finds.answered (answer : Option α) : Finds (CheckedText.found answer) fun _ => True :=
  Finds.found fun _ _ => trivial

theorem Finds.guard {p : Prop} [Decidable p] (h : p → holds value) :
    Finds (if p then Pure.pure value else Alternative.failure) holds := by
  split
  · next hp => exact Finds.pure (h hp)
  · exact Finds.failure

end Rules

section Pairs

variable {first : Run α} {a : α}

/-- Code that is known to return may be left out. -/
theorem lift_bind {next : α → Tried β} (h : first = .ok a) :
    OptionT.lift first >>= next = next a := by
  rw [h]
  rfl

theorem found_bind {next : α → Tried β} : (CheckedText.found (some a) >>= next) = next a := rfl

end Pairs

section Lists

/-- `xs[i]`. -/
def index (xs : List α) (i : ℕ) : Run α :=
  match xs[i]? with
  | some x => pure x
  | none => throw .outOfRange

/-- `xs[a..b]`. -/
def slice (xs : List α) (a b : ℕ) : Run (List α) :=
  if a ≤ b ∧ b ≤ xs.length then pure ((xs.take b).drop a) else throw .outOfRange

variable {xs ys : List α} {a b c : ℕ}

theorem index_returns (h : a < xs.length) : Returns (index xs a) fun x => xs[a]? = some x := by
  refine ⟨xs[a], ?_, List.getElem?_eq_getElem h⟩
  rw [index, List.getElem?_eq_getElem h]
  rfl

theorem slice_returns (hab : a ≤ b) (hb : b ≤ xs.length) :
    Returns (slice xs a b) fun part => part = (xs.take b).drop a := by
  refine ⟨_, ?_, rfl⟩
  rw [slice, if_pos ⟨hab, hb⟩]
  rfl

/-- Two parts that meet are one. -/
theorem take_append_part (hab : a ≤ b) : xs.take a ++ (xs.take b).drop a = xs.take b := by
  calc xs.take a ++ (xs.take b).drop a = (xs.take b).take a ++ (xs.take b).drop a := by
        rw [List.take_take, min_eq_left hab]
    _ = xs.take b := List.take_append_drop a (xs.take b)

/-- A part within a part. -/
theorem part_sublist {d : ℕ} (hac : c ≤ a) (hbd : b ≤ d) :
    ((xs.take b).drop a).Sublist ((xs.take d).drop c) := by
  have hdrop : ((xs.take b).drop a).Sublist ((xs.take b).drop c) := by
    have h := List.drop_sublist (a - c) ((xs.take b).drop c)
    rwa [List.drop_drop, Nat.add_sub_cancel' hac] at h
  have htake : (xs.take b).Sublist (xs.take d) := by
    have h := List.take_sublist b (xs.take d)
    rwa [List.take_take, min_eq_left hbd] at h
  exact hdrop.trans (htake.drop c)

end Lists

section Texts

/-- `text.len()`: how long a text is in bytes. -/
def byteLen (text : List Char) : ℕ := (text.map Char.utf8Size).sum

/-- `text.split_at(at)`, counted in bytes. -/
def splitAtByte : List Char → ℕ → Run (List Char × List Char)
  | text, 0 => pure ([], text)
  | [], _ + 1 => throw .outOfRange
  | c :: rest, place + 1 =>
    if c.utf8Size ≤ place + 1 then do
      let (before, after) ← splitAtByte rest (place + 1 - c.utf8Size)
      return (c :: before, after)
    else throw .outOfRange

/-- `text[..at]`. -/
def bytesTo (text : List Char) (place : ℕ) : Run (List Char) := Prod.fst <$> splitAtByte text place

/-- `text[at..]`. -/
def bytesFrom (text : List Char) (place : ℕ) : Run (List Char) :=
  Prod.snd <$> splitAtByte text place

/-- `text.find(holds)`: the byte at which the first such character starts. -/
def find (holds : Char → Bool) : List Char → Option ℕ
  | [] => none
  | c :: rest => if holds c then some 0 else (find holds rest).map (c.utf8Size + ·)

/-- `text.find(pattern)`: the byte at which the pattern first stands. -/
def findText (pattern : List Char) : List Char → Option ℕ
  | [] => if pattern = [] then some 0 else none
  | c :: rest =>
    if pattern.isPrefixOf (c :: rest) then some 0 else (findText pattern rest).map (c.utf8Size + ·)

/-- `text.rfind(x)`: the byte at which the character last stands. -/
def rfind (x : Char) : List Char → Option ℕ
  | [] => none
  | c :: rest =>
    match rfind x rest with
    | some place => some (c.utf8Size + place)
    | none => if c = x then some 0 else none

variable {text before after pattern : List Char} {place : ℕ}

@[simp] theorem byteLen_nil : byteLen [] = 0 := rfl

@[simp] theorem byteLen_cons (c : Char) (text : List Char) :
    byteLen (c :: text) = c.utf8Size + byteLen text := rfl

@[simp] theorem byteLen_append (before after : List Char) :
    byteLen (before ++ after) = byteLen before + byteLen after := by
  rw [byteLen, List.map_append, List.sum_append]
  rfl

/-- Where one text ends and another begins, the two can be cut apart. -/
theorem splitAtByte_append (before after : List Char) :
    splitAtByte (before ++ after) (byteLen before) = .ok (before, after) := by
  induction before with
  | nil =>
    rw [List.nil_append, byteLen_nil, splitAtByte.eq_def]
    rfl
  | cons c before ih =>
    obtain ⟨n, hn⟩ : ∃ n, byteLen (c :: before) = n + 1 :=
      ⟨byteLen (c :: before) - 1, by have := c.utf8Size_pos; rw [byteLen_cons]; omega⟩
    have hle : c.utf8Size ≤ n + 1 := by rw [← hn, byteLen_cons]; omega
    have hrest : n + 1 - c.utf8Size = byteLen before := by rw [← hn, byteLen_cons]; omega
    rw [List.cons_append, hn, splitAtByte, if_pos hle, hrest, ih]
    rfl

theorem bytesTo_append (before after : List Char) :
    bytesTo (before ++ after) (byteLen before) = .ok before := by
  rw [bytesTo, splitAtByte_append]
  rfl

theorem bytesFrom_append (before after : List Char) :
    bytesFrom (before ++ after) (byteLen before) = .ok after := by
  rw [bytesFrom, splitAtByte_append]
  rfl

/-- Characters of one byte each: their number is where they end. -/
theorem byteLen_of_ascii (h : ∀ c ∈ text, c.utf8Size = 1) : byteLen text = text.length := by
  induction text with
  | nil => rfl
  | cons c text ih =>
    have hc := h c List.mem_cons_self
    have htext := ih fun d hd => h d (List.mem_cons_of_mem c hd)
    rw [byteLen_cons, hc, htext, List.length_cons]
    omega

/-- What stands after such characters as take a byte each. -/
theorem takeWhile_cut {holds : Char → Bool} (h : ∀ c, holds c = true → c.utf8Size = 1)
    (text : List Char) :
    bytesTo text (text.takeWhile holds).length = .ok (text.takeWhile holds) ∧
      bytesFrom text (text.takeWhile holds).length = .ok (text.dropWhile holds) := by
  have hlength : byteLen (text.takeWhile holds) = (text.takeWhile holds).length :=
    byteLen_of_ascii fun c hc => h c (List.mem_takeWhile_imp hc)
  have hto := bytesTo_append (text.takeWhile holds) (text.dropWhile holds)
  have hfrom := bytesFrom_append (text.takeWhile holds) (text.dropWhile holds)
  rw [List.takeWhile_append_dropWhile, hlength] at hto hfrom
  exact ⟨hto, hfrom⟩

theorem find_spec {holds : Char → Bool} (h : find holds text = some place) :
    ∃ before c after, text = before ++ c :: after ∧ place = byteLen before ∧ holds c = true := by
  induction text generalizing place with
  | nil => simp [find] at h
  | cons c text ih =>
    rw [find] at h
    split at h
    · next hc => exact ⟨[], c, text, rfl, by simpa using h.symm, hc⟩
    · obtain ⟨n, hn, rfl⟩ := Option.map_eq_some_iff.mp h
      obtain ⟨before, d, after, rfl, rfl, hd⟩ := ih hn
      exact ⟨c :: before, d, after, rfl, rfl, hd⟩

/-- Nothing before the first such character is one. -/
theorem find_before {holds : Char → Bool} {c : Char}
    (hbefore : find holds (before ++ c :: after) = some (byteLen before)) :
    ∀ d ∈ before, holds d = false := by
  induction before with
  | nil => simp
  | cons d before ih =>
    rw [List.cons_append, find] at hbefore
    have hpositive := d.utf8Size_pos
    split at hbefore
    · have hzero := Option.some.inj hbefore
      rw [byteLen_cons] at hzero
      omega
    · next hd =>
      obtain ⟨n, hn, hsum⟩ := Option.map_eq_some_iff.mp hbefore
      rw [byteLen_cons] at hsum
      have hrest : find holds (before ++ c :: after) = some (byteLen before) := by
        rw [hn]
        congr 1
        omega
      exact List.forall_mem_cons.mpr ⟨Bool.eq_false_iff.mpr hd, ih hrest⟩

/-- Where a character first stands, a text splits in one way. -/
theorem split_unique {mark : Char} {other rest rest' : List Char} (hbefore : mark ∉ before)
    (hother : mark ∉ other)
    (h : before ++ mark :: rest = other ++ mark :: rest') : before = other ∧ rest = rest' := by
  induction before generalizing other with
  | nil =>
    cases other with
    | nil => exact ⟨rfl, (List.cons.inj h).2⟩
    | cons c other => exact absurd ((List.cons.inj h).1 ▸ List.mem_cons_self) hother
  | cons c before ih =>
    cases other with
    | nil => exact absurd ((List.cons.inj h).1 ▸ List.mem_cons_self) hbefore
    | cons d other =>
      obtain ⟨hsame, hrest⟩ := List.cons.inj h
      obtain ⟨heq, hrest⟩ := ih (fun hmem => hbefore (List.mem_cons_of_mem _ hmem))
        (fun hmem => hother (List.mem_cons_of_mem _ hmem)) hrest
      exact ⟨by rw [hsame, heq], hrest⟩

theorem findText_spec (h : findText pattern text = some place) :
    ∃ before after, text = before ++ pattern ++ after ∧ place = byteLen before := by
  induction text generalizing place with
  | nil =>
    rw [findText] at h
    split at h
    · next hpattern => exact ⟨[], [], by rw [hpattern]; rfl, by simpa using h.symm⟩
    · simp at h
  | cons c text ih =>
    rw [findText] at h
    split at h
    · next hprefix =>
      obtain ⟨after, hafter⟩ := List.isPrefixOf_iff_prefix.mp hprefix
      exact ⟨[], after, hafter.symm, by simpa using h.symm⟩
    · obtain ⟨n, hn, rfl⟩ := Option.map_eq_some_iff.mp h
      obtain ⟨before, after, rfl, rfl⟩ := ih hn
      exact ⟨c :: before, after, rfl, rfl⟩

theorem rfind_spec {x : Char} (h : rfind x text = some place) :
    ∃ before after, text = before ++ x :: after ∧ place = byteLen before := by
  induction text generalizing place with
  | nil => simp [rfind] at h
  | cons c text ih =>
    rw [rfind] at h
    split at h
    · next n hn =>
      obtain ⟨before, after, rfl, rfl⟩ := ih hn
      exact ⟨c :: before, after, rfl, by simpa using h.symm⟩
    · split at h
      · next hc => exact ⟨[], text, by rw [hc]; rfl, by simpa using h.symm⟩
      · simp at h

end Texts

section Lines

/-- `lines.join("\n")`. -/
def join (lines : List (List Char)) : List Char := ['\n'].intercalate lines

/-- Two joined texts, one after the other, are what is left when the break between them goes. -/
theorem join_append_sublist (lines others : List (List Char)) :
    (join lines ++ join others).Sublist (join (lines ++ others)) := by
  induction lines with
  | nil => exact List.Sublist.refl _
  | cons line lines ih =>
    cases lines with
    | nil =>
      cases others with
      | nil => simp [join]
      | cons other others =>
        simp only [join, List.intercalate_singleton, List.singleton_append,
          List.intercalate_cons_cons]
        exact (List.Sublist.refl line).append (List.sublist_append_right ['\n'] _) |>.trans
          (by simp)
    | cons second lines =>
      simp only [join, List.cons_append, List.intercalate_cons_cons, List.append_assoc] at ih ⊢
      exact (List.Sublist.refl line).append ((List.Sublist.refl ['\n']).append ih)

theorem join_sublist {items lines : List (List Char)} (h : List.Forall₂ List.Sublist items lines) :
    (join items).Sublist (join lines) := by
  induction h with
  | nil => exact List.Sublist.refl _
  | cons hfirst hrest ih =>
    cases hrest with
    | nil => simpa [join] using hfirst
    | cons hsecond hrest =>
      simp only [join, List.intercalate_cons_cons] at ih ⊢
      exact (hfirst.append (List.Sublist.refl _)).append ih

theorem flatten_sublist_join (lines : List (List Char)) : lines.flatten.Sublist (join lines) := by
  induction lines with
  | nil => exact List.Sublist.refl _
  | cons line lines ih =>
    have hjoin : (line ++ join lines).Sublist (join (line :: lines)) := by
      simpa [join] using join_append_sublist [line] lines
    exact ((List.Sublist.refl line).append ih).trans hjoin

end Lines

end CheckedText
