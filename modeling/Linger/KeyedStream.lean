import Mathlib.Tactic.Common
import Mathlib.Data.List.Basic

/-! A log of entries in streams, and a line some of them are put on, each by its
place in the log. A key entry can be played by itself; any other needs every entry
of its stream since the last key entry that was put on the line. -/
namespace KeyedStream

universe u v
variable {α : Type u} {κ : Type v} (stream : α → κ) (key : α → Bool)

/-- A key entry of a stream stands at `j`. -/
def KeyAt (log : List α) (k : κ) (j : ℕ) : Prop :=
  ∃ a, log[j]? = some a ∧ stream a = k ∧ key a = true

/-- The last key entry of a stream on the line before `n` stands at `j`, and every
entry of the stream between the two is on the line. -/
structure Whole (log : List α) (line : List ℕ) (k : κ) (j n : ℕ) : Prop where
  mem : j ∈ line
  before : j < n
  opens : KeyAt stream key log k j
  latest : ∀ i ∈ line, i < n → KeyAt stream key log k i → i ≤ j
  between : ∀ m a, log[m]? = some a → stream a = k → j < m → m < n → m ∈ line

/-- Whatever comes next in a stream can be put on the line. -/
def Ready (log : List α) (line : List ℕ) (k : κ) : Prop :=
  ∃ j, Whole stream key log line k j log.length

/-- The line is in the log's order, and each entry on it can be played. -/
structure Playable (log : List α) (line : List ℕ) : Prop where
  sorted : line.Pairwise (· < ·)
  known : ∀ n ∈ line, n < log.length
  whole : ∀ n ∈ line, ∀ a, log[n]? = some a → key a = false →
    ∃ j, Whole stream key log line (stream a) j n

variable {stream key} {log : List α} {line : List ℕ} {a : α} {k : κ} {j n : ℕ}

theorem getElem?_snoc_cases {m : ℕ} {c : α} (h : (log ++ [a])[m]? = some c) :
    log[m]? = some c ∨ m = log.length ∧ c = a := by
  rw [List.getElem?_append] at h
  split at h
  · exact .inl h
  · next hm =>
    obtain ⟨hlt, he⟩ := List.getElem?_eq_some_iff.mp h
    have hlen : m - log.length < 1 := by simpa using hlt
    have hm' : m = log.length := by omega
    subst hm'
    simp at he
    exact .inr ⟨rfl, he.symm⟩

theorem KeyAt.lt (h : KeyAt stream key log k j) : j < log.length := by
  obtain ⟨c, hc, -⟩ := h
  exact (List.getElem?_eq_some_iff.mp hc).1

theorem KeyAt.snoc (h : KeyAt stream key log k j) : KeyAt stream key (log ++ [a]) k j := by
  have hj := h.lt
  obtain ⟨c, hc, hk⟩ := h
  exact ⟨c, by rw [List.getElem?_append_left hj]; exact hc, hk⟩

theorem KeyAt.of_snoc (h : KeyAt stream key (log ++ [a]) k j) :
    KeyAt stream key log k j ∨ j = log.length ∧ stream a = k ∧ key a = true := by
  obtain ⟨c, hc, hk⟩ := h
  rcases getElem?_snoc_cases hc with hc | ⟨hj, rfl⟩
  · exact .inl ⟨c, hc, hk⟩
  · exact .inr ⟨hj, hk⟩

/-- What comes later in the log changes nothing about what came before. -/
theorem Whole.snoc (h : Whole stream key log line k j n) (hn : n ≤ log.length) :
    Whole stream key (log ++ [a]) line k j n := by
  refine ⟨h.mem, h.before, h.opens.snoc, fun i hi hlt hkey => ?_, fun m c hc hk hj hm => ?_⟩
  · rcases hkey.of_snoc with hkey | ⟨rfl, -⟩
    · exact h.latest i hi hlt hkey
    · omega
  · rcases getElem?_snoc_cases hc with hc | ⟨rfl, -⟩
    · exact h.between m c hc hk hj hm
    · omega

theorem Whole.put {m : ℕ} (h : Whole stream key log line k j n) (hn : n ≤ m) :
    Whole stream key log (line ++ [m]) k j n := by
  refine ⟨List.mem_append_left _ h.mem, h.before, h.opens, fun i hi hlt hkey => ?_,
    fun i c hc hk hj hi => List.mem_append_left _ (h.between i c hc hk hj hi)⟩
  rcases List.mem_append.mp hi with hi | hi
  · exact h.latest i hi hlt hkey
  · rw [List.mem_singleton.mp hi] at hlt
    omega

/-- An entry of another stream passes the line by. -/
theorem Ready.skip (h : Ready stream key log line k) (ha : stream a ≠ k) :
    Ready stream key (log ++ [a]) line k := by
  obtain ⟨j, h⟩ := h
  have hlen : (log ++ [a]).length = log.length + 1 := by simp
  refine ⟨j, h.mem, ?_, h.opens.snoc, fun i hi _ hkey => ?_, fun m c hc hk hj _ => ?_⟩
  · rw [hlen]
    exact Nat.lt_succ_of_lt h.before
  · rcases hkey.of_snoc with hkey | ⟨-, he, -⟩
    · exact h.latest i hi hkey.lt hkey
    · exact absurd he ha
  · rcases getElem?_snoc_cases hc with hc | ⟨-, rfl⟩
    · exact h.between m c hc hk hj (List.getElem?_eq_some_iff.mp hc).1
    · exact absurd hk ha

/-- An entry is put on a line that its stream, or it itself, is ready for. -/
theorem Ready.put (h : key a = true ∨ Ready stream key log line (stream a)) :
    Ready stream key (log ++ [a]) (line ++ [log.length]) (stream a) := by
  have hlen : (log ++ [a]).length = log.length + 1 := by simp
  by_cases hkey : key a = true
  · -- a key entry is where the stream starts again
    refine ⟨log.length, List.mem_append_right _ (List.mem_singleton_self _), ?_,
      ⟨a, by simp, rfl, hkey⟩, fun i _ hi _ => ?_, fun m c _ _ hm hlt => ?_⟩
    · omega
    · omega
    · omega
  · obtain ⟨j, h⟩ := h.resolve_left hkey
    refine ⟨j, List.mem_append_left _ h.mem, ?_, h.opens.snoc, fun i hi _ hk => ?_,
      fun m c hc hk hj _ => ?_⟩
    · rw [hlen]
      exact Nat.lt_succ_of_lt h.before
    · rcases hk.of_snoc with hk | ⟨-, -, he⟩
      · have hlt := hk.lt
        rcases List.mem_append.mp hi with hi | hi
        · exact h.latest i hi hlt hk
        · rw [List.mem_singleton.mp hi] at hlt
          omega
      · exact absurd he hkey
    · rcases getElem?_snoc_cases hc with hc | ⟨rfl, -⟩
      · exact List.mem_append_left _ (h.between m c hc hk hj (List.getElem?_eq_some_iff.mp hc).1)
      · exact List.mem_append_right _ (List.mem_singleton_self _)

theorem playable_nil (log : List α) : Playable stream key log [] :=
  ⟨List.Pairwise.nil, fun _ hn => absurd hn List.not_mem_nil,
    fun _ hn => absurd hn List.not_mem_nil⟩

theorem Playable.skip (h : Playable stream key log line) :
    Playable stream key (log ++ [a]) line := by
  refine ⟨h.sorted, fun n hn => ?_, fun n hn c hc hk => ?_⟩
  · rw [List.length_append]
    exact Nat.lt_add_right _ (h.known n hn)
  · have hlt := h.known n hn
    rw [List.getElem?_append_left hlt] at hc
    obtain ⟨j, hj⟩ := h.whole n hn c hc hk
    exact ⟨j, hj.snoc (Nat.le_of_lt hlt)⟩

theorem Playable.put (h : Playable stream key log line)
    (ha : key a = true ∨ Ready stream key log line (stream a)) :
    Playable stream key (log ++ [a]) (line ++ [log.length]) := by
  refine ⟨?_, fun n hn => ?_, fun n hn c hc hk => ?_⟩
  · refine List.pairwise_append.mpr ⟨h.sorted, List.pairwise_singleton _ _, fun n hn m hm => ?_⟩
    rw [List.mem_singleton.mp hm]
    exact h.known n hn
  · rcases List.mem_append.mp hn with hn | hn
    · rw [List.length_append]
      exact Nat.lt_add_right _ (h.known n hn)
    · rw [List.mem_singleton.mp hn]
      simp
  · rcases List.mem_append.mp hn with hn | hn
    · have hlt := h.known n hn
      rw [List.getElem?_append_left hlt] at hc
      obtain ⟨j, hj⟩ := h.whole n hn c hc hk
      exact ⟨j, (hj.snoc (Nat.le_of_lt hlt)).put (Nat.le_of_lt hlt)⟩
    · rw [List.mem_singleton.mp hn] at hc ⊢
      have he : c = a := by simpa using hc.symm
      subst he
      obtain ⟨j, hj⟩ := ha.resolve_left fun he => by rw [hk] at he; cases he
      exact ⟨j, (hj.snoc (Nat.le_refl _)).put (Nat.le_refl _)⟩

end KeyedStream
