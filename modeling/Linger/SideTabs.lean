import Linger.KeyedLists
import Linger.Names
import Mathlib.Data.List.Perm.Basic
import Mathlib.Data.Rat.Defs

/-! The tabs beside the list: which are open, in what order, and which one is showing; and how they
are read back after a restart. A number of the script's is an integer here, and a string what its
characters are. -/
namespace Linger.SideTabs
open Names (Text)

section Tabs

inductive Tool
  | media
  | search
deriving DecidableEq

/-- What the tabs beside the list can hold: a conversation on a server, or one of the tools. -/
inductive SideTab
  | conversation (server roomId : Text)
  | tool (tool : Tool)
deriving DecidableEq

structure Tabs where
  openTabs : List SideTab
  active : Option SideTab
  /-- The tab a person was opened in from the list, until it's kept. -/
  preview : Option SideTab
deriving DecidableEq

def noTabs : Tabs := ⟨[], none, none⟩

def same : Option SideTab → Option SideTab → Bool
  | some (.tool a), some (.tool b) => a = b
  | some (.conversation server roomId), some (.conversation server' roomId') =>
    server = server' && roomId = roomId'
  | _, _ => false

def existing (tabs : List SideTab) (tab : SideTab) : Option SideTab :=
  tabs.find? fun held => same (some held) (some tab)

def indexOf (tabs : List SideTab) (tab : Option SideTab) : Option ℕ :=
  tabs.findIdx? fun held => same (some held) tab

def keepTab (tabs : Tabs) (tab : SideTab) : Tabs :=
  if same tabs.preview (some tab) then { tabs with preview := none } else tabs

/-- Show a tab: its own if open, a new one at the end if not. -/
def openTab (tabs : Tabs) (tab : SideTab) : Tabs :=
  let kept := keepTab tabs tab
  match existing kept.openTabs tab with
  | some held => { kept with active := some held }
  | none => { kept with openTabs := kept.openTabs ++ [tab], active := some tab }

/-- Show a tab as a preview: it takes the place of the preview already open, where that one was. -/
def previewTab (tabs : Tabs) (tab : SideTab) : Tabs :=
  match existing tabs.openTabs tab with
  | some held => { tabs with active := some held }
  | none =>
    match indexOf tabs.openTabs tabs.preview with
    | none => ⟨tabs.openTabs ++ [tab], some tab, some tab⟩
    | some place => ⟨tabs.openTabs.set place tab, some tab, some tab⟩

def selectTab (tabs : Tabs) (tab : SideTab) : Tabs :=
  match existing tabs.openTabs tab with
  | some held => { tabs with active := some held }
  | none => tabs

def closeTab (tabs : Tabs) (tab : SideTab) : Tabs :=
  match indexOf tabs.openTabs (some tab) with
  | none => tabs
  | some index =>
    let left := tabs.openTabs.eraseIdx index
    let preview := if same tabs.preview (some tab) then none else tabs.preview
    if same tabs.active (some tab) then
      ⟨left, left[index]?.or (if index = 0 then none else left[index - 1]?), preview⟩
    else ⟨left, tabs.active, preview⟩

/-- The phone's way: what opens goes on top and shows, moved up if it was open lower down. -/
def pushTab (tabs : Tabs) (tab : SideTab) : Tabs :=
  ⟨tabs.openTabs.filter (fun held => !same (some held) (some tab)) ++ [tab], some tab, none⟩

def backTab (tabs : Tabs) : Tabs := tabs.active.elim tabs (closeTab tabs)

/-- Move a tab to a new position, keeping it showing if it was. -/
def moveTab (tabs : Tabs) (tab : SideTab) (target : ℤ) : Tabs :=
  match indexOf tabs.openTabs (some tab) with
  | none => tabs
  | some place =>
    match tabs.openTabs[place]? with
    | none => tabs
    | some moved =>
      let left := tabs.openTabs.eraseIdx place
      { tabs with openTabs := left.insertIdx (max 0 (min target left.length)).toNat moved }

/-- The tab `step` places along from the showing one, wrapping. -/
def stepTab (tabs : Tabs) (step : ℤ) : Tabs :=
  if tabs.openTabs = [] ∨ tabs.active = none then tabs
  else
    let index : ℤ := (indexOf tabs.openTabs tabs.active).elim (-1) Int.ofNat
    let length : ℤ := tabs.openTabs.length
    let next := ((index + step).tmod length + length).tmod length
    match if 0 ≤ next then tabs.openTabs[next.toNat]? else none with
    | some held => { tabs with active := some held }
    | none => tabs

/-- Drop tabs for conversations that no longer exist or that this window can't see. -/
def keepOnly (tabs : Tabs) (exist : SideTab → Bool) : Tabs :=
  let left := tabs.openTabs.filter exist
  if left.length = tabs.openTabs.length then tabs
  else
    let stands (tab : Option SideTab) : Bool := left.any fun held => same (some held) tab
    ⟨left, if stands tabs.active then tabs.active else left.head?, if stands tabs.preview then
      tabs.preview else none⟩

end Tabs

section Stored

/-- What a stored string reads as. -/
inductive Json
  | null
  | bool (value : Bool)
  | num (value : ℚ)
  | str (value : Text)
  | arr (items : List Json)
  | obj (fields : List (Text × Json))

/-- `name in value`, and then `value[name]`. -/
def Json.get (name : String) : Json → Option Json
  | .obj fields => (fields.find? fun field => field.1 = name.toList).map Prod.snd
  | _ => none

/-- How strings are read and written: `JSON`'s own. -/
structure Codec (Stored : Type) where
  parse : Stored → Option Json
  stringify : Json → Stored

def Tool.name : Tool → Text
  | .media => "media".toList
  | .search => "search".toList

def tabKey (value : Json) : Option SideTab :=
  match value.get "server", value.get "roomId" with
  | some (.str server), some (.str roomId) =>
    if 0 < server.length ∧ 0 < roomId.length then some (.conversation server roomId) else none
  | _, _ => none

def toolTab (value : Json) : Option SideTab :=
  match value.get "tool" with
  | some (.str name) => if name = Tool.media.name then some (.tool .media)
      else if name = Tool.search.name then some (.tool .search) else none
  | _ => none

def readTab (value : Json) : Option SideTab := (tabKey value).or (toolTab value)

/-- `same(held, wanted)`, of a value as it was read: a tool's if it has a `tool`, whatever else it
has. -/
def sameRead (held : SideTab) (wanted : Json) : Bool :=
  match held, wanted.get "tool" with
  | .tool tool, some (.str name) => tool.name = name
  | .conversation server roomId, none =>
    match wanted.get "server", wanted.get "roomId" with
    | some (.str server'), some (.str roomId') => server = server' && roomId = roomId'
    | _, _ => false
  | _, _ => false

def written : SideTab → Json
  | .conversation server roomId =>
    .obj [("server".toList, .str server), ("roomId".toList, .str roomId)]
  | .tool tool => .obj [("tool".toList, .str tool.name)]

def saved (tabs : Tabs) : Json :=
  .obj [("v".toList, .num 1), ("open".toList, .arr (tabs.openTabs.map written)),
    ("active".toList, tabs.active.elim .null written)]

/-- The list of tabs in a value of this version. -/
def listed (parsed : Json) : Option (List Json) :=
  match parsed.get "v", parsed.get "open" with
  | some (.num version), some (.arr items) => if version = 1 then some items else none
  | _, _ => none

variable {Stored : Type} (codec : Codec Stored)

def saveTabs (tabs : Tabs) : Stored := codec.stringify (saved tabs)

/-- Read back defensively: anything malformed is dropped rather than trusted. -/
def loadTabs (stored : Option Stored) : Tabs :=
  match stored.bind codec.parse with
  | none => noTabs
  | some parsed =>
    match listed parsed with
    | none => noTabs
    | some items =>
      let held := items.filterMap readTab
      let wanted := (parsed.get "active").filter fun value => (readTab value).isSome
      ⟨held, (wanted.bind fun value => held.find? (sameRead · value)).or held.head?, none⟩

end Stored

section Runs

inductive Op
  | openTab (tab : SideTab)
  | previewTab (tab : SideTab)
  | keepTab (tab : SideTab)
  | selectTab (tab : SideTab)
  | closeTab (tab : SideTab)
  | pushTab (tab : SideTab)
  | backTab
  | moveTab (tab : SideTab) (target : ℤ)
  | stepTab (step : ℤ)
  | keepOnly (exist : SideTab → Bool)

def Op.apply (tabs : Tabs) : Op → Tabs
  | .openTab tab => SideTabs.openTab tabs tab
  | .previewTab tab => SideTabs.previewTab tabs tab
  | .keepTab tab => SideTabs.keepTab tabs tab
  | .selectTab tab => SideTabs.selectTab tabs tab
  | .closeTab tab => SideTabs.closeTab tabs tab
  | .pushTab tab => SideTabs.pushTab tabs tab
  | .backTab => SideTabs.backTab tabs
  | .moveTab tab target => SideTabs.moveTab tabs tab target
  | .stepTab step => SideTabs.stepTab tabs step
  | .keepOnly exist => SideTabs.keepOnly tabs exist

def run (tabs : Tabs) (ops : List Op) : Tabs := ops.foldl Op.apply tabs

/-- The tab that an operation opens if it isn't open. -/
def Op.opens : Op → Option SideTab
  | .openTab tab | .previewTab tab | .pushTab tab => some tab
  | _ => none

end Runs

section WellFormed

variable {tabs : Tabs} {held : List SideTab} {tab other : SideTab} {op : Op} {place : ℕ}

/-- No tab twice, the showing one among them unless none is open, and the preview one of them. -/
structure WellFormed (tabs : Tabs) : Prop where
  once : tabs.openTabs.Nodup
  active : ∀ tab ∈ tabs.active, tab ∈ tabs.openTabs
  showing : tabs.active = none → tabs.openTabs = []
  preview : ∀ tab ∈ tabs.preview, tab ∈ tabs.openTabs

@[simp] theorem same_some (a b : SideTab) : same (some a) (some b) = decide (a = b) := by
  cases a with
  | conversation server roomId =>
    cases b with
    | conversation server' roomId' => simp [same]
    | tool tool => simp [same]
  | tool tool =>
    cases b with
    | conversation server roomId => simp [same]
    | tool tool' => simp [same]

@[simp] theorem same_none (a : Option SideTab) : same a none = false := by
  cases a with
  | none => rfl
  | some a => cases a with
    | conversation server roomId => rfl
    | tool tool => rfl

theorem same_iff (a : Option SideTab) : same a (some tab) = true ↔ a = some tab := by
  cases a with
  | none => simp [same]
  | some a => simp

theorem existing_mem (h : tab ∈ held) : existing held tab = some tab := by
  rw [existing, List.find?_eq_some_iff_append]
  obtain ⟨before, after, hheld, hbefore⟩ := List.eq_append_cons_of_mem h
  refine ⟨by simp, before, after, hheld, fun other hother => ?_⟩
  have hne : other ≠ tab := by
    rintro rfl
    exact hbefore hother
  simpa using hne

theorem existing_none (h : tab ∉ held) : existing held tab = none := by
  rw [existing, List.find?_eq_none]
  intro other hother
  have hne : other ≠ tab := by
    rintro rfl
    exact h hother
  simpa using hne

theorem indexOf_none (h : tab ∉ held) : indexOf held (some tab) = none := by
  rw [indexOf, List.findIdx?_eq_none_iff]
  intro other hother
  have hne : other ≠ tab := by
    rintro rfl
    exact h hother
  simpa using hne

/-- An open tab, found where it first stands. -/
theorem indexOf_mem (h : tab ∈ held) :
    ∃ before after, held = before ++ tab :: after ∧ tab ∉ before ∧
      indexOf held (some tab) = some before.length := by
  obtain ⟨before, after, rfl, hbefore⟩ := List.eq_append_cons_of_mem h
  have hindex :
      (before ++ tab :: after).findIdx? (fun other => id other = id tab) = some before.length := by
    apply KeyedLists.findIdx?_key
    intro other hother hsame
    have heq : other = tab := hsame
    exact hbefore (heq ▸ hother)
  refine ⟨before, after, rfl, hbefore, ?_⟩
  rw [indexOf]
  simpa using hindex

theorem WellFormed.select (h : WellFormed tabs) (hmem : tab ∈ tabs.openTabs) :
    WellFormed { tabs with active := some tab } := by
  refine ⟨h.once, ?_, by simp, h.preview⟩
  intro other hother
  rwa [← Option.some.inj hother]

theorem WellFormed.keepTab (h : WellFormed tabs) : WellFormed (keepTab tabs tab) := by
  rw [SideTabs.keepTab]
  split
  · exact ⟨h.once, h.active, h.showing, by simp⟩
  · exact h

@[simp] theorem keepTab_openTabs (tabs : Tabs) (tab : SideTab) :
    (keepTab tabs tab).openTabs = tabs.openTabs := by
  rw [keepTab]
  split
  · rfl
  · rfl

theorem nodup_append_new (honce : held.Nodup) (hnew : tab ∉ held) : (held ++ [tab]).Nodup :=
  List.nodup_append.mpr ⟨honce, List.nodup_singleton tab, by
    intro a ha b hb hab
    rw [List.mem_singleton.mp hb] at hab
    exact hnew (hab ▸ ha)⟩

theorem WellFormed.openTab (h : WellFormed tabs) : WellFormed (openTab tabs tab) := by
  rw [SideTabs.openTab]
  by_cases hmem : tab ∈ tabs.openTabs
  · rw [keepTab_openTabs, existing_mem hmem]
    have hkept : WellFormed (SideTabs.keepTab tabs tab) := h.keepTab
    have hin : tab ∈ (SideTabs.keepTab tabs tab).openTabs := by rwa [keepTab_openTabs]
    have hshown := hkept.select hin
    rwa [keepTab_openTabs] at hshown
  · rw [keepTab_openTabs, existing_none hmem]
    refine ⟨nodup_append_new h.once hmem, by simp, by simp, ?_⟩
    intro other hother
    have hin := h.keepTab.preview other hother
    rw [keepTab_openTabs] at hin
    exact List.mem_append_left [tab] hin

theorem WellFormed.previewTab (h : WellFormed tabs) : WellFormed (previewTab tabs tab) := by
  rw [SideTabs.previewTab]
  by_cases hmem : tab ∈ tabs.openTabs
  · rw [existing_mem hmem]
    exact h.select hmem
  · rw [existing_none hmem]
    cases hpreview : tabs.preview with
    | none =>
      have hindex : indexOf tabs.openTabs none = none := by simp [indexOf]
      rw [hindex]
      exact ⟨nodup_append_new h.once hmem, by simp, by simp, by simp⟩
    | some preview =>
      -- The new tab stands where the preview stood, and was nowhere else.
      obtain ⟨before, after, hsplit, hbefore, hindex⟩ := indexOf_mem (h.preview preview hpreview)
      have hset : tabs.openTabs.set before.length tab = before ++ tab :: after := by
        rw [hsplit, List.set_append_right _ _ le_rfl, Nat.sub_self, List.set_cons_zero]
      have honce := h.once
      rw [hsplit] at hmem honce
      have hnodup : (before ++ tab :: after).Nodup := by
        rw [List.mem_append, List.mem_cons, not_or, not_or] at hmem
        rw [List.nodup_append, List.nodup_cons] at honce ⊢
        refine ⟨honce.1, ⟨hmem.2.2, honce.2.1.2⟩, ?_⟩
        intro a ha b hb
        rcases List.mem_cons.mp hb with rfl | hafter
        · rintro rfl
          exact hmem.1 ha
        · exact honce.2.2 a ha b (List.mem_cons_of_mem preview hafter)
      rw [hindex]
      dsimp only
      rw [hset]
      exact ⟨hnodup, by simp, by simp, by simp⟩

theorem WellFormed.selectTab (h : WellFormed tabs) : WellFormed (selectTab tabs tab) := by
  rw [SideTabs.selectTab]
  by_cases hmem : tab ∈ tabs.openTabs
  · rw [existing_mem hmem]
    exact h.select hmem
  · rw [existing_none hmem]
    exact h

/-- What closing a tab leaves, and what shows then: what showed before, or the right neighbour, or
the left. -/
theorem closeTab_of_mem (h : WellFormed tabs) {before after : List SideTab}
    (hsplit : tabs.openTabs = before ++ tab :: after) : closeTab tabs tab =
      ⟨before ++ after, if tabs.active = some tab then
        after.head?.or before.getLast? else tabs.active,
        if tabs.preview = some tab then none else tabs.preview⟩ := by
  have honce := h.once
  rw [hsplit, List.nodup_append] at honce
  have hbefore : ∀ other ∈ before, id other ≠ id tab :=
    fun other hother => honce.2.2 other hother tab List.mem_cons_self
  have hindex : indexOf tabs.openTabs (some tab) = some before.length := by
    have hfound :
        (before ++ tab :: after).findIdx? (fun other => id other = id tab) = some before.length :=
      KeyedLists.findIdx?_key hbefore
    rw [indexOf, hsplit]
    simpa using hfound
  have hleft : tabs.openTabs.eraseIdx before.length = before ++ after := by
    rw [hsplit, List.eraseIdx_append_of_length_le le_rfl, Nat.sub_self, List.eraseIdx_cons_zero]
  have hright : (before ++ after)[before.length]? = after.head? := by
    rw [List.getElem?_append_right le_rfl, Nat.sub_self, List.head?_eq_getElem?]
  have hother : (if before.length = 0 then none else (before ++ after)[before.length - 1]?) =
      before.getLast? := by
    split
    · next hzero => rw [List.length_eq_zero_iff.mp hzero, List.getLast?_nil]
    · next hpositive => rw [List.getElem?_append_left (by omega), List.getLast?_eq_getElem?]
  rw [closeTab, hindex]
  dsimp only
  rw [hleft, hright, hother]
  simp only [same_iff]
  split
  · rfl
  · rfl

theorem closeTab_of_not_mem (h : tab ∉ tabs.openTabs) : closeTab tabs tab = tabs := by
  rw [closeTab, indexOf_none h]

theorem WellFormed.closeTab (h : WellFormed tabs) : WellFormed (closeTab tabs tab) := by
  by_cases hmem : tab ∈ tabs.openTabs
  · obtain ⟨before, after, hsplit⟩ := List.append_of_mem hmem
    rw [closeTab_of_mem h hsplit]
    have honce := h.once
    rw [hsplit] at honce
    -- Only the closed tab is gone, which is neither the showing tab nor the preview below.
    have hothers {other : SideTab} (hother : other ∈ tabs.openTabs) (hne : other ≠ tab) :
        other ∈ before ++ after := by
      rw [hsplit, List.mem_append, List.mem_cons] at hother
      rw [List.mem_append]
      tauto
    refine ⟨?_, ?_, ?_, ?_⟩
    · exact honce.sublist (List.Sublist.append_left (List.sublist_cons_self tab after) before)
    · intro other hother
      dsimp only at hother
      split at hother
      · rcases Option.or_eq_some_iff.mp hother with hhead | ⟨-, hlast⟩
        · exact List.mem_append_right before (List.mem_of_mem_head? hhead)
        · exact List.mem_append_left after (List.mem_of_getLast? hlast)
      · next hactive =>
        apply hothers (h.active other hother)
        rintro rfl
        exact hactive hother
    · intro hnone
      dsimp only at hnone
      split at hnone
      · rw [Option.or_eq_none_iff, List.head?_eq_none_iff, List.getLast?_eq_none_iff] at hnone
        rw [hnone.1, hnone.2]
        rfl
      · rw [h.showing hnone] at hmem
        cases hmem
    · intro other hother
      dsimp only at hother
      split at hother
      · cases hother
      · next hpreview =>
        apply hothers (h.preview other hother)
        rintro rfl
        exact hpreview hother
  · rw [closeTab_of_not_mem hmem]
    exact h

theorem WellFormed.pushTab (h : WellFormed tabs) : WellFormed (pushTab tabs tab) := by
  have hnew : tab ∉ tabs.openTabs.filter fun held => !same (some held) (some tab) := by
    simp
  exact ⟨nodup_append_new (h.once.filter _)
    hnew, by simp [SideTabs.pushTab], by simp [SideTabs.pushTab], by simp [SideTabs.pushTab]⟩

theorem WellFormed.backTab (h : WellFormed tabs) : WellFormed (backTab tabs) := by
  rw [SideTabs.backTab]
  cases tabs.active with
  | none => exact h
  | some tab => exact h.closeTab

/-- Moving a tab never adds or drops one. -/
theorem moveTab_perm (tabs : Tabs) (tab : SideTab) (target : ℤ) :
    (moveTab tabs tab target).openTabs.Perm tabs.openTabs := by
  rw [moveTab]
  by_cases hmem : tab ∈ tabs.openTabs
  · obtain ⟨before, after, hsplit, -, hindex⟩ := indexOf_mem hmem
    have hplace : tabs.openTabs[before.length]? = some tab := by
      rw [hsplit, List.getElem?_append_right le_rfl, Nat.sub_self, List.getElem?_cons_zero]
    have hleft : tabs.openTabs.eraseIdx before.length = before ++ after := by
      rw [hsplit, List.eraseIdx_append_of_length_le le_rfl, Nat.sub_self, List.eraseIdx_cons_zero]
    rw [hindex]
    dsimp only
    rw [hplace]
    dsimp only
    rw [hleft, hsplit]
    have hle : (max 0 (min target ((before ++ after).length : ℤ))).toNat ≤
        (before ++ after).length := by omega
    exact (List.perm_insertIdx tab (before ++ after) hle).trans List.perm_middle.symm
  · rw [indexOf_none hmem]

theorem moveTab_rest (tabs : Tabs) (tab : SideTab) (target : ℤ) :
    (moveTab tabs tab target).active = tabs.active ∧
    (moveTab tabs tab target).preview = tabs.preview := by
  rw [moveTab]
  split
  · exact ⟨rfl, rfl⟩
  · split
    · exact ⟨rfl, rfl⟩
    · exact ⟨rfl, rfl⟩

theorem WellFormed.moveTab (h : WellFormed tabs) (target : ℤ) :
    WellFormed (moveTab tabs tab target) := by
  have hperm := moveTab_perm tabs tab target
  obtain ⟨hactive, hpreview⟩ := moveTab_rest tabs tab target
  refine ⟨hperm.nodup_iff.mpr h.once, ?_, ?_, ?_⟩
  · intro other hother
    rw [hactive] at hother
    exact hperm.mem_iff.mpr (h.active other hother)
  · intro hnone
    rw [hactive] at hnone
    rw [h.showing hnone] at hperm
    exact hperm.eq_nil
  · intro other hother
    rw [hpreview] at hother
    exact hperm.mem_iff.mpr (h.preview other hother)

/-- Stepping leaves the tabs, and shows one of them. -/
theorem stepTab_spec (tabs : Tabs) (step : ℤ) : stepTab tabs step = tabs ∨
    ∃ held ∈ tabs.openTabs, stepTab tabs step = { tabs with active := some held } := by
  rw [stepTab]
  split
  · exact Or.inl rfl
  · dsimp only
    split
    · next held hheld =>
      right
      split at hheld
      · exact ⟨held, List.mem_of_getElem? hheld, rfl⟩
      · cases hheld
    · exact Or.inl rfl

theorem stepTab_openTabs (tabs : Tabs) (step : ℤ) :
    (stepTab tabs step).openTabs = tabs.openTabs := by
  rcases stepTab_spec tabs step with h | ⟨held, -, h⟩
  · rw [h]
  · rw [h]

theorem WellFormed.stepTab (h : WellFormed tabs) (step : ℤ) : WellFormed (stepTab tabs step) := by
  rcases stepTab_spec tabs step with hstep | ⟨held, hheld, hstep⟩
  · rw [hstep]
    exact h
  · rw [hstep]
    exact h.select hheld

theorem WellFormed.keepOnly (h : WellFormed tabs) (exist : SideTab → Bool) :
    WellFormed (keepOnly tabs exist) := by
  have hstands (tab : Option SideTab) :
      ((tabs.openTabs.filter exist).any fun held => same (some held) tab) = true →
      ∀ other ∈ tab, other ∈ tabs.openTabs.filter exist := by
    intro hany other hother
    obtain ⟨held, hheld, hsame⟩ := List.any_eq_true.mp hany
    rw [Option.mem_def.mp hother, same_iff, Option.some.injEq] at hsame
    rwa [← hsame]
  rw [SideTabs.keepOnly]
  dsimp only
  split
  · exact h
  · refine ⟨h.once.filter exist, ?_, ?_, ?_⟩
    · intro other hother
      dsimp only at hother
      split at hother
      · next hany => exact hstands tabs.active hany other hother
      · exact List.mem_of_mem_head? hother
    · intro hnone
      dsimp only at hnone
      split at hnone
      · rw [h.showing hnone]
        rfl
      · exact List.head?_eq_none_iff.mp hnone
    · intro other hother
      dsimp only at hother
      split at hother
      · next hany => exact hstands tabs.preview hany other hother
      · cases hother

/-- Every operation keeps the tabs well formed. -/
theorem WellFormed.apply (h : WellFormed tabs) (op : Op) : WellFormed (op.apply tabs) := by
  cases op with
  | openTab tab => exact h.openTab
  | previewTab tab => exact h.previewTab
  | keepTab tab => exact h.keepTab
  | selectTab tab => exact h.selectTab
  | closeTab tab => exact h.closeTab
  | pushTab tab => exact h.pushTab
  | backTab => exact h.backTab
  | moveTab tab target => exact h.moveTab target
  | stepTab step => exact h.stepTab step
  | keepOnly exist => exact h.keepOnly exist

end WellFormed

section Restart

variable {Stored : Type} {codec : Codec Stored} {tabs : Tabs} {tab : SideTab} {op : Op}
  {ops done : List Op}

/-- A conversation has a server and a room. -/
def Named : SideTab → Prop
  | .conversation server roomId => server ≠ [] ∧ roomId ≠ []
  | .tool _ => True

instance : DecidablePred Named := fun tab =>
  match tab with
  | .conversation server roomId => inferInstanceAs (Decidable (server ≠ [] ∧ roomId ≠ []))
  | .tool _ => inferInstanceAs (Decidable True)

/-- A stored string that lists no tab twice. -/
def ListsOnce (codec : Codec Stored) (stored : Option Stored) : Prop :=
  ∀ parsed items, stored.bind codec.parse = some parsed → listed parsed = some items →
    items.Pairwise fun value other => ∀ tab, readTab value = some tab → readTab other ≠ some tab

theorem readTab_named {value : Json} (h : readTab value = some tab) : Named tab := by
  rcases Option.or_eq_some_iff.mp h with hkey | ⟨-, htool⟩
  · rw [tabKey] at hkey
    split at hkey
    · split at hkey
      · next hlengths =>
        rw [← Option.some.inj hkey]
        exact ⟨List.length_pos_iff.mp hlengths.1, List.length_pos_iff.mp hlengths.2⟩
      · cases hkey
    · cases hkey
  · rw [toolTab] at htool
    split at htool
    · split at htool
      · rw [← Option.some.inj htool]
        trivial
      · split at htool
        · rw [← Option.some.inj htool]
          trivial
        · cases htool
    · cases htool

/-- A tab is read back as it was written, unless it is a conversation without a server or a room. -/
theorem readTab_written (tab : SideTab) :
    readTab (written tab) = if Named tab then some tab else none := by
  cases tab with
  | conversation server roomId =>
    have hserver : (written (.conversation server roomId)).get "server" = some (.str server) := rfl
    have hroom : (written (.conversation server roomId)).get "roomId" = some (.str roomId) := rfl
    have htool : (written (.conversation server roomId)).get "tool" = none := rfl
    rw [readTab, tabKey, hserver, hroom, toolTab, htool]
    dsimp only
    rw [Option.or_none]
    apply if_congr _ rfl rfl
    rw [List.length_pos_iff, List.length_pos_iff, Named]
  | tool tool =>
    cases tool with
    | media => rfl
    | search => rfl

theorem sameRead_written (held tab : SideTab) :
    sameRead held (written tab) = decide (held = tab) := by
  cases tab with
  | conversation server roomId =>
    have hserver : (written (.conversation server roomId)).get "server" = some (.str server) := rfl
    have hroom : (written (.conversation server roomId)).get "roomId" = some (.str roomId) := rfl
    have htool : (written (.conversation server roomId)).get "tool" = none := rfl
    cases held with
    | conversation server' roomId' => simp [sameRead, hserver, hroom, htool]
    | tool tool => simp [sameRead, htool]
  | tool tool =>
    have htool : (written (.tool tool)).get "tool" = some (.str tool.name) := rfl
    cases held with
    | conversation server roomId => simp [sameRead, htool]
    | tool held =>
      simp only [sameRead, htool]
      cases held with
      | media =>
        cases tool with
        | media => rfl
        | search => rfl
      | search =>
        cases tool with
        | media => rfl
        | search => rfl

theorem loadTabs_listed {stored : Option Stored} {parsed : Json} {items : List Json}
    (hparsed : stored.bind codec.parse = some parsed) (hlisted : listed parsed = some items) :
    loadTabs codec stored = ⟨items.filterMap readTab,
      (((parsed.get "active").filter fun value => (readTab value).isSome).bind fun value =>
        (items.filterMap readTab).find? (sameRead · value)).or (items.filterMap readTab).head?,
          none⟩ := by
  rw [loadTabs, hparsed]
  dsimp only
  rw [hlisted]

/-- Where nothing is listed, nothing is open. -/
theorem loadTabs_cases (codec : Codec Stored) (stored : Option Stored) :
    (∃ parsed items, stored.bind codec.parse = some parsed ∧ listed parsed = some items) ∨
      loadTabs codec stored = noTabs ∧ ListsOnce codec stored := by
  cases hparsed : stored.bind codec.parse with
  | none =>
    right
    rw [loadTabs, hparsed]
    refine ⟨rfl, fun parsed items hbind => ?_⟩
    rw [hparsed] at hbind
    cases hbind
  | some parsed =>
    cases hlisted : listed parsed with
    | none =>
      right
      rw [loadTabs, hparsed]
      dsimp only
      rw [hlisted]
      refine ⟨rfl, fun parsed' items hbind hitems => ?_⟩
      rw [hparsed, Option.some.injEq] at hbind
      rw [← hbind, hlisted] at hitems
      cases hitems
    | some items => exact Or.inl ⟨parsed, items, rfl, hlisted⟩

/-- The tabs are read back well formed if and only if none is listed twice. -/
theorem loadTabs_wellFormed (codec : Codec Stored) (stored : Option Stored) :
    WellFormed (loadTabs codec stored) ↔ ListsOnce codec stored := by
  rcases loadTabs_cases codec stored with ⟨parsed, items, hparsed, hlisted⟩ | ⟨hnone, honce⟩
  · have hnodup : (items.filterMap readTab).Nodup ↔ ListsOnce codec stored := by
      rw [List.Nodup, List.pairwise_filterMap]
      constructor
      · intro h parsed' items' hparsed' hlisted'
        rw [hparsed, Option.some.injEq] at hparsed'
        rw [← hparsed', hlisted, Option.some.injEq] at hlisted'
        rw [← hlisted']
        exact h.imp fun hne tab htab hother => hne tab htab tab hother rfl
      · intro h
        apply (h parsed items hparsed hlisted).imp
        rintro value other hne tab htab tab' hother rfl
        exact hne tab htab hother
    rw [loadTabs_listed hparsed hlisted, ← hnodup]
    constructor
    · exact fun h => h.once
    · intro hheld
      refine ⟨hheld, ?_, ?_, by simp⟩
      · intro tab htab
        rcases Option.or_eq_some_iff.mp htab with hfound | ⟨-, hfirst⟩
        · obtain ⟨value, -, hfind⟩ := Option.bind_eq_some_iff.mp hfound
          exact List.mem_of_find?_eq_some hfind
        · exact List.mem_of_mem_head? hfirst
      · intro hactive
        exact List.head?_eq_none_iff.mp (Option.or_eq_none_iff.mp hactive).2
  · rw [hnone]
    exact iff_of_true ⟨List.nodup_nil, by simp [noTabs], fun _ => rfl, by simp [noTabs]⟩ honce

theorem loadTabs_named (codec : Codec Stored) (stored : Option Stored) :
    ∀ tab ∈ (loadTabs codec stored).openTabs, Named tab := by
  intro tab htab
  rcases loadTabs_cases codec stored with ⟨parsed, items, hparsed, hlisted⟩ | ⟨hnone, -⟩
  · rw [loadTabs_listed hparsed hlisted] at htab
    obtain ⟨value, -, hread⟩ := List.mem_filterMap.mp htab
    exact readTab_named hread
  · rw [hnone] at htab
    cases htab

/-- Tabs come back after a restart, all kept, if each conversation among them has a server and a
room, and only then. -/
theorem restart_iff (hjson : codec.parse (codec.stringify (saved tabs)) = some (saved tabs))
    (h : WellFormed tabs) :
    loadTabs codec (some (saveTabs codec tabs)) = { tabs with preview := none } ↔
      ∀ tab ∈ tabs.openTabs, Named tab := by
  have hparsed : (some (saveTabs codec tabs)).bind codec.parse = some (saved tabs) := hjson
  have hlisted : listed (saved tabs) = some (tabs.openTabs.map written) := by
    have hversion : (saved tabs).get "v" = some (.num 1) := rfl
    have hopen : (saved tabs).get "open" = some (.arr (tabs.openTabs.map written)) := rfl
    rw [listed, hversion, hopen]
    exact if_pos rfl
  have hactive : (saved tabs).get "active" = some (tabs.active.elim .null written) := rfl
  have hread : (tabs.openTabs.map written).filterMap readTab = tabs.openTabs.filter fun tab =>
      decide (Named tab) := by
    rw [List.filterMap_map, ← List.filterMap_eq_filter]
    apply List.filterMap_congr
    intro tab _
    rw [Function.comp_apply, readTab_written, Option.guard_apply]
    simp
  rw [loadTabs_listed hparsed hlisted, hread, hactive]
  constructor
  · intro heq
    have hall : tabs.openTabs.filter (fun tab => decide (Named tab)) = tabs.openTabs :=
      congrArg Tabs.openTabs heq
    intro tab htab
    exact of_decide_eq_true (List.filter_eq_self.mp hall tab htab)
  · intro hnamed
    have hall : tabs.openTabs.filter (fun tab => decide (Named tab)) = tabs.openTabs :=
      List.filter_eq_self.mpr fun tab htab => decide_eq_true (hnamed tab htab)
    rw [hall]
    cases htab : tabs.active with
    | none =>
      rw [h.showing htab]
      rfl
    | some tab =>
      -- The showing tab is listed, so it is found again among those read.
      have hmem := h.active tab htab
      have hkept : (readTab (written tab)).isSome = true := by
        rw [readTab_written, if_pos (hnamed tab hmem)]
        rfl
      have hfind : tabs.openTabs.find? (sameRead · (written tab)) = some tab := by
        have hfound := existing_mem hmem
        rw [existing] at hfound
        simpa [sameRead_written] using hfound
      rw [Option.elim_some, Option.filter_some, if_pos hkept, Option.bind_some, hfind,
        Option.some_or]

theorem mem_closeTab (h : WellFormed tabs) {closed : SideTab}
    (htab : tab ∈ (closeTab tabs closed).openTabs) :
    tab ∈ tabs.openTabs := by
  by_cases hmem : closed ∈ tabs.openTabs
  · obtain ⟨before, after, hsplit⟩ := List.append_of_mem hmem
    rw [closeTab_of_mem h hsplit] at htab
    rw [hsplit]
    exact (List.Sublist.append_left (List.sublist_cons_self closed after) before).subset htab
  · rwa [closeTab_of_not_mem hmem] at htab

/-- What is open after an operation was open before it or is what the operation opens. -/
theorem mem_apply (h : WellFormed tabs) (htab : tab ∈ (op.apply tabs).openTabs) :
    tab ∈ tabs.openTabs ∨ op.opens = some tab := by
  have hnew {opened : SideTab} (hin : tab ∈ tabs.openTabs ++ [opened]) :
      tab ∈ tabs.openTabs ∨ some opened = some tab := by
    rw [List.mem_append, List.mem_singleton] at hin
    rcases hin with hin | rfl
    · exact Or.inl hin
    · exact Or.inr rfl
  cases op with
  | openTab opened =>
    simp only [Op.apply, SideTabs.openTab, keepTab_openTabs] at htab
    split at htab
    · exact Or.inl htab
    · exact hnew htab
  | previewTab opened =>
    simp only [Op.apply, SideTabs.previewTab] at htab
    split at htab
    · exact Or.inl htab
    · split at htab
      · exact hnew htab
      · rcases List.mem_or_eq_of_mem_set htab with hin | rfl
        · exact Or.inl hin
        · exact Or.inr rfl
  | keepTab kept =>
    simp only [Op.apply, keepTab_openTabs] at htab
    exact Or.inl htab
  | selectTab selected =>
    simp only [Op.apply, SideTabs.selectTab] at htab
    split at htab
    · exact Or.inl htab
    · exact Or.inl htab
  | closeTab closed => exact Or.inl (mem_closeTab h htab)
  | pushTab opened =>
    rcases List.mem_append.mp htab with hin | hin
    · exact Or.inl (List.mem_of_mem_filter hin)
    · rw [List.mem_singleton.mp hin]
      exact Or.inr rfl
  | backTab =>
    simp only [Op.apply, SideTabs.backTab] at htab
    cases hactive : tabs.active with
    | none =>
      rw [hactive] at htab
      exact Or.inl htab
    | some active =>
      rw [hactive] at htab
      exact Or.inl (mem_closeTab h htab)
  | moveTab moved target => exact Or.inl ((moveTab_perm tabs moved target).mem_iff.mp htab)
  | stepTab step =>
    simp only [Op.apply, stepTab_openTabs] at htab
    exact Or.inl htab
  | keepOnly exist =>
    simp only [Op.apply, SideTabs.keepOnly] at htab
    split at htab
    · exact Or.inl htab
    · exact Or.inl (List.mem_of_mem_filter htab)

/-- What an operation opens is open after it. -/
theorem opens_mem (h : op.opens = some tab) : tab ∈ (op.apply tabs).openTabs := by
  cases op with
  | openTab opened =>
    obtain rfl := Option.some.inj h
    simp only [Op.apply, SideTabs.openTab, keepTab_openTabs]
    by_cases hmem : opened ∈ tabs.openTabs
    · rw [existing_mem hmem]
      simpa using hmem
    · rw [existing_none hmem]
      simp
  | previewTab opened =>
    obtain rfl := Option.some.inj h
    simp only [Op.apply, SideTabs.previewTab]
    by_cases hmem : opened ∈ tabs.openTabs
    · rw [existing_mem hmem]
      exact hmem
    · rw [existing_none hmem]
      dsimp only
      split
      · simp
      · next place hplace =>
        have hlt := (List.findIdx?_eq_some_iff_getElem.mp hplace).1
        exact List.mem_set hlt opened
  | pushTab opened =>
    obtain rfl := Option.some.inj h
    exact List.mem_append_right _ (List.mem_singleton_self opened)
  | keepTab kept => cases h
  | selectTab selected => cases h
  | closeTab closed => cases h
  | backTab => cases h
  | moveTab moved target => cases h
  | stepTab step => cases h
  | keepOnly exist => cases h

/-- Tabs as they should be. -/
structure Orderly (codec : Codec Stored) (tabs : Tabs) : Prop where
  formed : WellFormed tabs
  /-- Closing the showing tab shows its right neighbour, or the left one. -/
  closing : ∀ tab before after, tabs.active = some tab → tabs.openTabs = before ++ tab :: after →
    (closeTab tabs tab).openTabs = before ++ after ∧
      (closeTab tabs tab).active = after.head?.or before.getLast?
  moving : ∀ tab target, (moveTab tabs tab target).openTabs.Perm tabs.openTabs
  stepping : ∀ step, (stepTab tabs step).openTabs = tabs.openTabs
  restart : loadTabs codec (some (saveTabs codec tabs)) = { tabs with preview := none }

theorem orderly_iff
    (hjson : ∀ tabs, codec.parse (codec.stringify (saved tabs)) = some (saved tabs)) :
    Orderly codec tabs ↔ WellFormed tabs ∧ ∀ tab ∈ tabs.openTabs, Named tab := by
  constructor
  · intro h
    exact ⟨h.formed, (restart_iff (hjson tabs) h.formed).mp h.restart⟩
  · rintro ⟨h, hnamed⟩
    refine ⟨h, ?_, moveTab_perm tabs, stepTab_openTabs tabs,
      (restart_iff (hjson tabs) h).mpr hnamed⟩
    intro tab before after hactive hsplit
    rw [closeTab_of_mem h hsplit, if_pos hactive]
    exact ⟨rfl, rfl⟩

/-- Over a run, tabs stay well formed and named. -/
theorem run_named {start : Tabs} (hstart : WellFormed start ∧ ∀ tab ∈ start.openTabs, Named tab)
    (hops : ∀ op ∈ ops, ∀ tab ∈ op.opens, Named tab) :
    WellFormed (run start ops) ∧ ∀ tab ∈ (run start ops).openTabs, Named tab := by
  induction ops generalizing start with
  | nil => exact hstart
  | cons op ops ih =>
    rw [List.forall_mem_cons] at hops
    rw [run, List.foldl_cons]
    apply ih _ hops.2
    refine ⟨hstart.1.apply op, fun tab htab => ?_⟩
    rcases mem_apply hstart.1 htab with hbefore | hopens
    · exact hstart.2 tab hbefore
    · exact hops.1 tab hopens

/-- **Tabs stay well formed** in every state of a run from what was stored, if and only if the
stored string lists no tab twice and no conversation without a server or a room is ever opened. -/
theorem tabs_stay_iff (codec : Codec Stored)
    (hjson : ∀ tabs, codec.parse (codec.stringify (saved tabs)) = some (saved tabs))
    (stored : Option Stored) (ops : List Op) :
    (∀ done, done <+: ops → Orderly codec (run (loadTabs codec stored) done)) ↔
      ListsOnce codec stored ∧ ∀ op ∈ ops, ∀ tab ∈ op.opens, Named tab := by
  constructor
  · intro h
    refine ⟨(loadTabs_wellFormed codec stored).mp (h [] List.nil_prefix).formed,
      fun op hop tab htab => ?_⟩
    -- Right after the operation its tab is open, and the round trip needs it named.
    obtain ⟨before, after, rfl⟩ := List.append_of_mem hop
    have horderly := h (before ++ [op]) ⟨after, by simp⟩
    have hrun : run (loadTabs codec stored) (before ++ [op]) =
        op.apply (run (loadTabs codec stored) before) := by
      rw [run, List.foldl_append]
      rfl
    rw [hrun, orderly_iff hjson] at horderly
    exact horderly.2 tab (opens_mem htab)
  · rintro ⟨honce, hops⟩ done ⟨rest, rfl⟩
    rw [orderly_iff hjson]
    apply run_named ⟨(loadTabs_wellFormed codec stored).mpr honce, loadTabs_named codec stored⟩
    exact fun op hop => hops op (List.mem_append_left rest hop)

/-- Strings by what they read as. -/
def asRead : Codec Json := ⟨some, id⟩

/-- A stored list with the media tab in it twice. -/
def mediaTwice : Json :=
  .obj [("v".toList, .num 1),
    ("open".toList, .arr [written (.tool .media), written (.tool .media)]),
    ("active".toList, .null)]

theorem tabs_stay_opened : ListsOnce asRead none ∧ ∀ done,
    done <+: [.openTab (.tool .search), .previewTab (.conversation "home".toList "general".toList),
      .stepTab 1, .backTab] → Orderly asRead (run (loadTabs asRead none) done) := by
  have honce : ListsOnce asRead none := by
    intro parsed items hparsed
    cases hparsed
  exact ⟨honce, (tabs_stay_iff asRead (fun _ => rfl) none _).mpr ⟨honce, by decide⟩⟩

theorem stored_twice_open_twice :
    (loadTabs asRead (some mediaTwice)).openTabs = [.tool .media, .tool .media] ∧
    ¬Orderly asRead (run (loadTabs asRead (some mediaTwice)) []) := by
  have hopen : (loadTabs asRead (some mediaTwice)).openTabs = [.tool .media, .tool .media] := by
    decide
  refine ⟨hopen, fun h => ?_⟩
  have honce : (loadTabs asRead (some mediaTwice)).openTabs.Nodup := h.formed.once
  rw [hopen] at honce
  exact absurd honce (by decide)

end Restart

end Linger.SideTabs
