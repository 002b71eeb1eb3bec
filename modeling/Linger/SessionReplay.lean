import Linger.LogSlice
import Linger.Wire

/-! What a session keeps for its app to resume from. -/
namespace Linger
open LogSlice

def resumeWindowMs : ℕ := 120000

/-- Each frame's number, when it was sent, and its event; the most frames kept
whatever their age; and the newest number let go of, 0 until one is. -/
structure Replay where
  frames : List (ℕ × ℕ × ServerEvent)
  most : ℕ
  letGo : ℕ

namespace Replay

def new (most : ℕ) : Replay := ⟨[], max most 1, 0⟩

/-- The oldest frames go while there are too many, or while a socket is attached
and they are older than the window. -/
def letGoOf (most now : ℕ) (attached : Bool) :
    List (ℕ × ℕ × ServerEvent) → ℕ → List (ℕ × ℕ × ServerEvent) × ℕ
  | [], letGo => ([], letGo)
  | f :: frames, letGo =>
    if (f :: frames).length > most ∨ (attached ∧ now - f.2.1 > resumeWindowMs) then
      letGoOf most now attached frames f.1
    else (f :: frames, letGo)

/-- Keep frame `seq`, sent at `now`, and let go of what no resume can need. -/
def keep (r : Replay) (seq : ℕ) (event : ServerEvent) (now : ℕ) (attached : Bool) : Replay :=
  let kept := letGoOf r.most now attached (r.frames ++ [(seq, now, event)]) r.letGo
  { r with frames := kept.1, letGo := kept.2 }

/-- Every frame after `resumeFrom`, or none when one of them has been let go of. -/
def after (r : Replay) (resumeFrom : ℕ) : Option (List (ℕ × ServerEvent)) :=
  if r.letGo ≤ resumeFrom then
    some ((r.frames.filter fun f => f.1 > resumeFrom).map fun f => (f.1, f.2.2))
  else none

def events (frames : List (ℕ × ℕ × ServerEvent)) : List (ℕ × ServerEvent) :=
  frames.map fun f => (f.1, f.2.2)

/-- Of everything logged, what is kept is the end, from what was let go of last. -/
structure Keeps (r : Replay) (log : List ServerEvent) : Prop where
  letGo_le : r.letGo ≤ log.length
  frames : events r.frames = slice log r.letGo log.length

theorem keeps_new (most : ℕ) : Keeps (new most) [] := ⟨le_rfl, rfl⟩

theorem letGoOf_slice {log : List ServerEvent} (most now : ℕ) (attached : Bool)
    {frames : List (ℕ × ℕ × ServerEvent)} {letGo : ℕ} (hle : letGo ≤ log.length)
    (h : events frames = slice log letGo log.length) :
    (letGoOf most now attached frames letGo).2 ≤ log.length ∧
      events (letGoOf most now attached frames letGo).1 =
        slice log (letGoOf most now attached frames letGo).2 log.length := by
  induction frames generalizing letGo with
  | nil => exact ⟨hle, h⟩
  | cons f frames ih =>
    unfold letGoOf
    split
    · obtain ⟨hlt, hnum, hrest, -⟩ := slice_cons le_rfl h
      have hnum : f.1 = letGo + 1 := hnum
      rw [hnum]
      exact ih hlt hrest
    · exact ⟨hle, h⟩

theorem Keeps.keep {r : Replay} {log : List ServerEvent} (h : Keeps r log) (event : ServerEvent)
    (now : ℕ) (attached : Bool) :
    Keeps (r.keep (log.length + 1) event now attached) (log ++ [event]) := by
  have hlen : (log ++ [event]).length = log.length + 1 := by simp
  have hframes : events (r.frames ++ [(log.length + 1, now, event)]) =
      slice (log ++ [event]) r.letGo (log ++ [event]).length := by
    rw [hlen, slice_snoc h.letGo_le, ← h.frames]
    simp [events]
  have hle : r.letGo ≤ (log ++ [event]).length := by
    have := h.letGo_le
    omega
  obtain ⟨hl, hf⟩ := letGoOf_slice r.most now attached hle hframes
  exact ⟨hl, hf⟩

/-- A replay is whole, or it isn't given. -/
theorem Keeps.after {r : Replay} {log : List ServerEvent} (h : Keeps r log) {resumeFrom : ℕ}
    (hfrom : resumeFrom ≤ log.length) :
    r.after resumeFrom =
      if r.letGo ≤ resumeFrom then some (slice log resumeFrom log.length) else none := by
  unfold Replay.after
  split
  · next hl =>
    rw [← slice_filter hl hfrom le_rfl, ← h.frames, events, List.filter_map]
    rfl
  · rfl

/-- Every number above `resumeFrom` is kept exactly when none of them was let go of. -/
theorem Keeps.whole_iff {r : Replay} {log : List ServerEvent} (h : Keeps r log) {resumeFrom : ℕ} :
    r.letGo ≤ resumeFrom ↔
      ∀ n, resumeFrom < n → n ≤ log.length → n ∈ r.frames.map Prod.fst := by
  have hnums : r.frames.map Prod.fst = (slice log r.letGo log.length).map Prod.fst := by
    rw [← h.frames, events, List.map_map]
    rfl
  rw [hnums]
  constructor
  · intro hl n hn hle
    exact (mem_slice le_rfl n).mpr ⟨by omega, hle⟩
  · intro hall
    by_contra hl
    have := h.letGo_le
    have hmem := (mem_slice le_rfl r.letGo).mp (hall r.letGo (by omega) this)
    omega

end Replay
end Linger
