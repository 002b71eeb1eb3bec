import Linger.DmAudience

/-! Where no session takes a DM's frame while the list of DMs lacks the DM, and
nobody who has left is written back into it, a DM's frames stay with its people. -/
namespace Linger
open FiniteMap StepMachine

namespace DmStore

/-- This person is one a DM was made for. -/
def Made (db : DmStore) (d : RoomId) (u : UserId) : Prop :=
  ∃ row, db.dms[d]? = some row ∧ u ∈ row.made

theorem Made.grows {db db' : DmStore} {d : RoomId} {u : UserId} (h : db.Made d u)
    (hg : Grows db db') : db'.Made d u := by
  obtain ⟨row, hd, hu⟩ := h
  obtain ⟨row', hd', hm⟩ := hg d row hd
  exact ⟨row', hd', hm ▸ hu⟩

end DmStore

namespace Audience
open DmStore

/-- A frame about a room is for nobody in particular. -/
def RoomFrames (bus : List Fanout) : Prop :=
  ∀ f ∈ bus, f.room.isSome → f.toUser = none ∧ f.toSession = none

/-- The list of DMs holds people of the DM who haven't left it. -/
def Audiences (db : DmStore) (dms : FMap RoomId (List UserId)) (left : Finset (RoomId × UserId)) :
    Prop :=
  ∀ (d : RoomId) (members : List UserId), dms[d]? = some members →
    ∀ u ∈ members, db.Made d u ∧ (d, u) ∉ left

/-- What a request has read, or made, of a DM's members were made for it. -/
def Knows (db : DmStore) : DmTask → Prop
  | .note d members => ∀ u ∈ members, db.Made d u
  | .reloadMembers _ loaded _ | .reloadInsert loaded _ _ => ∀ e ∈ loaded, ∀ u ∈ e.2, db.Made e.1 u
  | _ => True

structure AudienceInv (t : Audience) : Prop where
  rows : RowsMade t.db
  bus : RoomFrames t.gateway.bus
  audiences : Audiences t.db t.gateway.dmMembers t.left
  knows : ∀ i, Knows t.db (t.tasks i)
  handed : ∀ h ∈ t.handed, h.wasMember = true ∧ h.hadLeft = false

theorem Knows.grows {db db' : DmStore} {task : DmTask} (h : Knows db task) (hg : Grows db db') :
    Knows db' task := by
  cases task with
  | note d members => exact fun u hu => (h u hu).grows hg
  | reloadMembers ids loaded lines => exact fun e he u hu => (h e he u hu).grows hg
  | reloadInsert loaded fresh lines => exact fun e he u hu => (h e he u hu).grows hg
  | _ => trivial

theorem Audiences.grows {db db' : DmStore} {dms : FMap RoomId (List UserId)}
    {left : Finset (RoomId × UserId)} (h : Audiences db dms left) (hg : Grows db db') :
    Audiences db' dms left :=
  fun d members hd u hu => ⟨(h d members hd u hu).1.grows hg, (h d members hd u hu).2⟩

/-- Whatever a request changed, it keeps the invariant if what it wrote does. -/
theorem AudienceInv.goOn {t t' : Audience} {i : ℕ} {task : DmTask} (h : AudienceInv t)
    (hg : Grows t.db t'.db) (hrows : RowsMade t'.db) (hbus : RoomFrames t'.gateway.bus)
    (haud : Audiences t'.db t'.gateway.dmMembers t'.left) (htasks : t'.tasks = t.tasks)
    (hhanded : t'.handed = t.handed) (hk : Knows t'.db task) : AudienceInv (t'.goOn i task) := by
  refine ⟨hrows, hbus, haud, fun j => ?_, fun e he => h.handed e (hhanded ▸ he)⟩
  show Knows t'.db (Function.update t'.tasks i task j)
  rw [Function.update_apply]
  split
  · exact hk
  · rw [htasks]
    exact (h.knows j).grows hg

theorem RoomFrames.append {bus : List Fanout} (h : RoomFrames bus) {f : Fanout}
    (hf : f.room.isSome → f.toUser = none ∧ f.toSession = none) : RoomFrames (bus ++ [f]) := by
  intro f' hf'
  rcases List.mem_append.mp hf' with hf' | hf'
  · exact h f' hf'
  · rw [List.mem_singleton.mp hf']
    exact hf

/-- A request that only put a frame on the bus. -/
theorem AudienceInv.tells {t : Audience} {i : ℕ} {task : DmTask} {g : Gateway} {f : Fanout}
    (h : AudienceInv t) (hg : g = { t.gateway with bus := t.gateway.bus ++ [f] })
    (hf : f.room.isSome → f.toUser = none ∧ f.toSession = none) (hk : Knows t.db task) :
    AudienceInv ({ t with gateway := g }.goOn i task) := by
  subst hg
  exact h.goOn (Grows.refl _) h.rows (h.bus.append hf) h.audiences rfl rfl hk

theorem AudienceInv.waits {t : Audience} {i : ℕ} {task : DmTask} (h : AudienceInv t)
    (hk : Knows t.db task) : AudienceInv (t.goOn i task) :=
  h.goOn (Grows.refl _) h.rows h.bus h.audiences rfl rfl hk

theorem Audiences.insert {db : DmStore} {dms : FMap RoomId (List UserId)}
    {left : Finset (RoomId × UserId)} (h : Audiences db dms left) {d : RoomId}
    {members : List UserId} (hm : ∀ u ∈ members, db.Made d u ∧ (d, u) ∉ left) :
    Audiences db (dms.insert d members) left := by
  intro e ms he u hu
  rw [insert_at] at he
  split at he
  · next hed =>
    cases he
    rw [hed]
    exact hm u hu
  · exact h e ms he u hu

theorem Audiences.leftDm {t : Audience} (h : Audiences t.db t.gateway.dmMembers t.left)
    (d : RoomId) (u : UserId) :
    Audiences t.db (t.gateway.leftDm d u).dmMembers (Insert.insert (d, u) t.left) := by
  intro e ms he v hv
  simp only [Gateway.leftDm, Std.ExtTreeMap.getElem?_modify, Nat.compare_eq_eq] at he
  split at he
  · next hde =>
    subst hde
    obtain ⟨ms', hms', rfl⟩ := Option.map_eq_some_iff.mp he
    obtain ⟨hv, hne⟩ := List.mem_filter.mp hv
    obtain ⟨hmade, hleft⟩ := h d ms' hms' v hv
    refine ⟨hmade, fun hin => ?_⟩
    rcases Finset.mem_insert.mp hin with hin | hin
    · simp [(Prod.mk.inj hin).2] at hne
    · exact hleft hin
  · next hde =>
    obtain ⟨hmade, hleft⟩ := h e ms he v hv
    refine ⟨hmade, fun hin => ?_⟩
    rcases Finset.mem_insert.mp hin with hin | hin
    · exact hde (Prod.mk.inj hin).1.symm
    · exact hleft hin

theorem Audiences.retain {t : Audience} (h : Audiences t.db t.gateway.dmMembers t.left)
    (fresh : List RoomId) :
    Audiences t.db (t.gateway.reloadRetain fresh).dmMembers t.left := by
  intro d ms hd u hu
  have hd : t.gateway.dmMembers[d]? = some ms ∧ d ∈ fresh := by
    simpa [Gateway.reloadRetain] using hd
  exact h d ms hd.1 u hu

theorem audienceInv_advance {t t' : Audience} {i : ℕ} {seen : Seen} (h : AudienceInv t)
    (hok : Safe t (.step i seen)) (hs : t.advance i seen (t.tasks i) = some t') :
    AudienceInv t' := by
  have hk := h.knows i
  unfold Safe at hok
  dsimp only at hok
  cases hi : t.tasks i with
  | done =>
    rw [hi] at hs
    cases hs
  -- A new DM: the row it makes has just these members.
  | insert members =>
    rw [hi] at hs
    dsimp only [advance] at hs
    split at hs
    · cases hs
    · next hnew =>
      split at hs
      · cases hs
        exact h.waits trivial
      · next db hdb =>
        cases hs
        obtain ⟨hg, hrows, row, hrow, hmade⟩ := insertDm_spec (by simpa using hnew) h.rows hdb
        refine h.goOn hg hrows h.bus (h.audiences.grows hg) rfl rfl fun u hu => ⟨row, hrow, ?_⟩
        rw [hmade]
        exact hu
  -- By the condition none of the members it notes has left meanwhile.
  | note d members =>
    rw [hi] at hs hk hok
    cases hs
    exact h.goOn (Grows.refl _) h.rows h.bus
      (h.audiences.insert fun u hu => ⟨hk u hu, hok u hu⟩) rfl rfl trivial
  | announce d =>
    rw [hi] at hs
    cases hs
    exact h.tells rfl (fun _ => ⟨rfl, rfl⟩) trivial
  | posting d event =>
    rw [hi] at hs
    cases hs
    split
    · exact h.tells rfl (fun _ => ⟨rfl, rfl⟩) trivial
    · exact h.tells rfl (fun _ => ⟨rfl, rfl⟩) trivial
  -- Who left is in no audience of the DM any more.
  | leftDm d u line =>
    rw [hi] at hs
    cases hs
    exact h.goOn (Grows.refl _) h.rows h.bus (h.audiences.leftDm d u) rfl rfl trivial
  -- The next only send frames.
  | voiceOut d u line =>
    rw [hi] at hs
    cases hs
    split
    · exact h.tells rfl (fun _ => ⟨rfl, rfl⟩) trivial
    · exact h.waits trivial
  | removeTold d u line =>
    rw [hi] at hs
    cases hs
    exact h.tells rfl (fun hr => by cases hr) trivial
  | tellRoom lines =>
    rw [hi] at hs
    cases lines with
    | nil =>
      cases hs
      exact h.waits trivial
    | cons l lines =>
      cases hs
      exact h.tells rfl (fun _ => ⟨rfl, rfl⟩) trivial
  | tellLine lines =>
    rw [hi] at hs
    cases lines with
    | nil =>
      cases hs
      exact h.waits trivial
    | cons l lines =>
      cases hs
      exact h.tells rfl (fun _ => ⟨rfl, rfl⟩) trivial
  | reload lines =>
    rw [hi] at hs
    cases hs
    exact h.waits fun e he => absurd he List.not_mem_nil
  -- Whom a reload reads as members were made members in the rows.
  | reloadMembers ids loaded lines =>
    rw [hi] at hs hk
    cases ids with
    | nil =>
      cases hs
      exact h.waits hk
    | cons d ids =>
      cases hs
      refine h.waits fun e he u hu => ?_
      rcases List.mem_append.mp he with he | he
      · exact hk e he u hu
      · rw [List.mem_singleton.mp he] at hu ⊢
        exact members_made h.rows hu
  -- As `note`, for each DM that was read.
  | reloadInsert loaded fresh lines =>
    rw [hi] at hs hk hok
    cases loaded with
    | nil =>
      cases hs
      exact h.waits trivial
    | cons e loaded =>
      cases hs
      refine h.goOn (Grows.refl _) h.rows h.bus (h.audiences.insert fun u hu => ?_) rfl rfl
        fun e' he' => hk e' (List.mem_cons_of_mem _ he')
      exact ⟨hk e List.mem_cons_self u hu, hok u hu⟩
  -- Retaining takes audiences away and adds nobody.
  | reloadRetain fresh lines =>
    rw [hi] at hs
    cases hs
    exact h.goOn (Grows.refl _) h.rows h.bus (h.audiences.retain fresh) rfl rfl trivial

/-- A frame about a room the list of DMs has reaches only who the list says. -/
theorem visibleTo_member {g : Gateway} {u : UserId} {s : SessionId} {f : Fanout} {d : RoomId}
    (hroom : f.room = some d) (hf : f.toUser = none ∧ f.toSession = none) (hdm : g.isDm d)
    (hv : (g.visibleTo u s f).1.isSome) :
    ∃ members, g.dmMembers[d]? = some members ∧ u ∈ members := by
  unfold Gateway.isDm at hdm
  obtain ⟨members, hm⟩ := Option.isSome_iff_exists.mp hdm
  refine ⟨members, hm, ?_⟩
  by_contra hu
  have hc : g.canSeeRoom u d = false := by
    rw [Gateway.canSeeRoom, hm]
    simpa using hu
  unfold Gateway.visibleTo at hv
  rw [hf.1, hf.2, hroom] at hv
  simp [hc] at hv

/-- Handing a frame on only ever makes what it tells, and keeps where it goes. -/
theorem visibleTo_frame (g : Gateway) (u : UserId) (s : SessionId) (f : Fanout) :
    (g.visibleTo u s f).2.room = f.room ∧ (g.visibleTo u s f).2.toUser = f.toUser ∧
      (g.visibleTo u s f).2.toSession = f.toSession := by
  unfold Gateway.visibleTo
  dsimp only
  repeat' split
  all_goals exact ⟨rfl, rfl, rfl⟩

theorem audienceInv_take {t t' : Audience} {s : SessionId} (h : AudienceInv t)
    (hok : Safe t (.take s)) (hs : t.step (.take s) = some t') : AudienceInv t' := by
  unfold step at hs
  dsimp only at hs
  split at hs
  · next u n f hsess hf =>
    cases hs
    have hmem : f ∈ t.gateway.bus := by
      simp only [nextFrame, hsess, Option.bind_some] at hf
      exact List.mem_of_getElem? hf
    refine ⟨h.rows, fun f' hf' hroom => ?_, h.audiences, h.knows, fun e he => ?_⟩
    · rcases List.mem_or_eq_of_mem_set hf' with hf' | rfl
      · exact h.bus f' hf' hroom
      · obtain ⟨hr, hu, hsn⟩ := visibleTo_frame t.gateway u s f
        rw [hr] at hroom
        rw [hu, hsn]
        exact h.bus f hmem hroom
    · rcases List.mem_append.mp he with he | he
      · exact h.handed e he
      · -- what was handed now is about a DM the list has, so to one of its people
        rw [Option.mem_toList, Option.bind_eq_some_iff] at he
        obtain ⟨json, hjson, he⟩ := he
        unfold handing at he
        obtain ⟨d, hd, he⟩ := Option.bind_eq_some_iff.mp he
        obtain ⟨row, hrow, rfl⟩ := Option.map_eq_some_iff.mp he
        simp only [Safe, hf, Option.bind_some, hd] at hok
        have hdm := hok (by rw [hrow]; rfl)
        obtain ⟨members, hm, hu⟩ := visibleTo_member hd (h.bus f hmem (by rw [hd]; rfl)) hdm
          (by rw [hjson]; rfl)
        obtain ⟨⟨row', hrow', hmade⟩, hleft⟩ := h.audiences d members hm u hu
        rw [hrow] at hrow'
        cases hrow'
        exact ⟨by simpa using hmade, by simpa using hleft⟩
  · cases hs

theorem eq_some_of_starts {t t' : Audience} {i : ℕ} {next : Option Audience}
    (h : t.starts i next = some t') : next = some t' := by
  unfold starts at h
  split at h
  · exact h
  · cases h

theorem audienceInv_step {t t' : Audience} {a : Act} (h : AudienceInv t) (hok : Safe t a)
    (hs : t.step a = some t') : AudienceInv t' := by
  cases a with
  | step i seen => exact audienceInv_advance h hok hs
  | take s => exact audienceInv_take h hok hs
  | create i members =>
    replace hs := eq_some_of_starts hs
    split at hs
    · cases hs
      exact h
    · cases hs
      exact h.waits trivial
  | post i d u event =>
    replace hs := eq_some_of_starts hs
    split at hs
    · cases hs
      exact h.waits trivial
    · cases hs
  | leave i d u line =>
    obtain ⟨⟨db, told⟩, hl, rfl⟩ := Option.map_eq_some_iff.mp (eq_some_of_starts hs)
    obtain ⟨hg, hrows⟩ := leave_spec h.rows hl
    exact h.goOn hg hrows h.bus (h.audiences.grows hg) rfl rfl trivial
  | remove i u =>
    cases eq_some_of_starts hs
    exact h.goOn (fun d row hd => ⟨row, hd, rfl⟩) h.rows h.bus h.audiences rfl rfl trivial
  | restore i u =>
    cases eq_some_of_starts hs
    exact h.goOn (fun d row hd => ⟨row, hd, rfl⟩) h.rows h.bus h.audiences rfl rfl trivial
  | delete i u lines =>
    cases eq_some_of_starts hs
    obtain ⟨hg, hrows⟩ := delete_spec h.rows u
    exact h.goOn hg hrows h.bus (h.audiences.grows hg) rfl rfl trivial
  | fail i =>
    unfold step at hs
    dsimp only at hs
    split at hs
    · cases hs
      exact h.waits trivial
    · cases hs
  | connect s u =>
    unfold step at hs
    dsimp only at hs
    split at hs
    · cases hs
    · cases hs
      exact ⟨h.rows, h.bus, h.audiences, h.knows, h.handed⟩
  | gone s =>
    cases hs
    exact ⟨h.rows, h.bus, h.audiences, h.knows, h.handed⟩

theorem audienceInv_start : AudienceInv machine.start := by
  refine ⟨fun d row hd => ?_, fun f hf => ?_, fun d members hd => ?_, fun i => trivial,
    fun e he => ?_⟩
  · simp [machine, DmStore.empty] at hd
  · simp [machine, Gateway.new] at hf
  · simp [machine, Gateway.new] at hd
  · simp [machine] at he

/-- In a run all of whose steps are safe, whatever a session is handed of a DM
it is handed to one of the DM's people, who hasn't left it. -/
theorem dm_frames_stay {acts : List Act} {t : Audience} (hok : machine.Meets Safe acts)
    (ht : machine.run acts = some t) :
    ∀ h ∈ t.handed, h.wasMember = true ∧ h.hadLeft = false :=
  (machine.invariant_of_meets audienceInv_start
    (fun _ _ _ h hok hs => audienceInv_step h hok hs) hok ht : AudienceInv t).handed

instance decidableSafe (t : Audience) (a : Act) : Decidable (Safe t a) := by
  unfold Safe
  split
  · split <;> infer_instance
  · split <;> infer_instance
  · infer_instance

def goes (i n : ℕ) : List Act := List.replicate n (.step i ⟨100, true⟩)

/-- A DM of three is made, its people take its frames, and one of them leaves. -/
def quietLeave : List Act :=
  [.connect 10 1, .connect 20 2, .connect 30 3, .connect 40 4, .create 0 [1, 2, 3]] ++ goes 0 3 ++
    [.take 20, .take 30, .take 40, .leave 1 100 3 7] ++ goes 1 6 ++
    [.take 20, .take 20, .take 20, .take 20, .take 30, .take 30, .take 30, .take 30]

theorem dm_frames_stay_quietLeave :
    ∃ t, machine.run quietLeave = some t ∧ t.handed.length = 5 ∧
      ∀ h ∈ t.handed, h.wasMember = true ∧ h.hadLeft = false := by
  have hok : machine.Meets Safe quietLeave := by decide
  exact ⟨_, rfl, by decide, dm_frames_stay hok rfl⟩

/-- Another member finds the DM before the list has it, and posts: the frame is
on its way to everybody. -/
def earlyPost : List Act :=
  [.connect 30 3, .create 0 [1, 2]] ++ goes 0 1 ++
    [.create 1 [2, 1], .post 1 100 2 (.messageCreate ⟨7, 100⟩)] ++ goes 1 1 ++ [.take 30]

theorem earlyPost_reaches_stranger :
    ∃ t, machine.run earlyPost = some t ∧ ⟨3, 100, false, false⟩ ∈ t.handed := by
  exact ⟨_, rfl, by decide⟩

/-- A reload read the members before one of them left, and writes them after. -/
def staleReload : List Act :=
  [.connect 30 3, .create 0 [1, 2, 3]] ++ goes 0 3 ++ [.restore 1 5] ++ goes 1 3 ++
    [.leave 2 100 3 7] ++ goes 2 1 ++ goes 1 1 ++ goes 2 4 ++
    [.take 30, .take 30, .take 30, .take 30, .take 30]

example : ∃ t, machine.run staleReload = some t ∧ ⟨3, 100, true, true⟩ ∈ t.handed :=
  ⟨_, rfl, by decide⟩

end Audience
end Linger
