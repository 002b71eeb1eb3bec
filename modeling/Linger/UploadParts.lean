import Linger.UploadFile

/-! The parts of an upload, as the server plans and measures them and as the app cuts the file into
them. -/
namespace Linger.UploadParts
open Uploads UploadFile

variable {size number byte : ℕ}

/-- The most bytes a put of one part may have. -/
def putPart (sizeBytes part : ℕ) : Option ℕ :=
  let (count, partSize) := partPlan sizeBytes
  if part = 0 ∨ count < part then none
  else if part = count then some (sizeBytes - partSize * (count - 1))
  else some partSize

/-- Where the parts of a file are. -/
structure Tiles (size : ℕ) (ranges : List PartRange) : Prop where
  nonempty : ∀ range ∈ ranges, range.start < range.stop
  first : ranges.head?.map PartRange.start = some 0
  adjacent : ranges.IsChain fun range next => range.stop = next.start
  last : ranges.getLast?.map PartRange.stop = some size
  /-- Each byte is in one part, and there is no more than the file's bytes. -/
  once : ∀ byte, (∃ range ∈ ranges, range.start ≤ byte ∧ byte < range.stop) ↔ byte < size
  apart : ∀ byte, ∀ range ∈ ranges, ∀ other ∈ ranges, range.start ≤ byte → byte < range.stop →
    other.start ≤ byte → byte < other.stop → range = other

/-- The `index`th part, counted from nothing. -/
def rangeAt (size index : ℕ) : PartRange :=
  ⟨index + 1, MULTIPART_THRESHOLD_BYTES * index, min (MULTIPART_THRESHOLD_BYTES * (index + 1)) size⟩

theorem partPlan_size (size : ℕ) : (partPlan size).2 = MULTIPART_THRESHOLD_BYTES := by
  rw [partPlan]
  split <;> rfl

/-- The last part starts inside the file, and ends where it ends. -/
theorem partPlan_count (h : 1 ≤ size) : 1 ≤ (partPlan size).1 ∧
    MULTIPART_THRESHOLD_BYTES * ((partPlan size).1 - 1) < size ∧
    size ≤ MULTIPART_THRESHOLD_BYTES * (partPlan size).1 := by
  rw [partPlan]
  unfold MULTIPART_THRESHOLD_BYTES
  split
  · dsimp only
    omega
  · dsimp only
    omega

theorem ranges_eq (size : ℕ) : ranges size = (List.range (partPlan size).1).map (rangeAt size) := by
  rw [ranges, slotOf, partPlan_size, partRanges, partPlan]
  split
  · next hsmall =>
    simp [rangeAt, hsmall]
  · have hpositive : 0 < MULTIPART_THRESHOLD_BYTES := by decide
    rw [rangesFrom_eq hpositive (Nat.sub_le size 0), Nat.sub_zero]
    apply List.map_congr_left
    intro index _
    simp [rangeAt]

/-- A part's length is what is left of the file where it starts, or a whole part. -/
theorem rangeAt_length (h : 1 ≤ size) (hnumber : number < (partPlan size).1) :
    partLen size (number + 1) = some ((rangeAt size number).stop - (rangeAt size number).start) ∧
      putPart size (number + 1) = partLen size (number + 1) ∧
      (rangeAt size number).start < (rangeAt size number).stop := by
  obtain ⟨hcount, hinside, hends⟩ := partPlan_count h
  have hmany : ¬ (number + 1 = 0 ∨ (partPlan size).1 < number + 1) := by omega
  have hsame : putPart size (number + 1) = partLen size (number + 1) := by
    rw [putPart, partLen]
  have hpositive : 0 < MULTIPART_THRESHOLD_BYTES := by decide
  refine ⟨?_, hsame, ?_⟩
  · rw [partLen, if_neg hmany, partPlan_size, rangeAt]
    by_cases hlast : number + 1 = (partPlan size).1
    · rw [if_pos hlast, ← hlast, Nat.add_sub_cancel, Nat.min_eq_right (by rw [hlast]; exact hends)]
    · have hless : MULTIPART_THRESHOLD_BYTES * (number + 1) ≤
          MULTIPART_THRESHOLD_BYTES * ((partPlan size).1 - 1) :=
        Nat.mul_le_mul_left _ (by omega)
      rw [if_neg hlast, Nat.min_eq_left (by omega), Nat.mul_succ, Nat.add_sub_cancel_left]
  · have hless :
        MULTIPART_THRESHOLD_BYTES * number ≤ MULTIPART_THRESHOLD_BYTES * ((partPlan size).1 - 1) :=
      Nat.mul_le_mul_left _ (by omega)
    rw [rangeAt]
    dsimp only
    rw [Nat.mul_succ]
    omega

/-- A byte is in the part its place says. -/
theorem in_rangeAt (h : (rangeAt size number).start ≤ byte ∧ byte < (rangeAt size number).stop) :
    byte / MULTIPART_THRESHOLD_BYTES = number ∧ byte < size := by
  obtain ⟨hstart, hstop⟩ := h
  rw [rangeAt] at hstart hstop
  dsimp only at hstart hstop
  have hless := Nat.lt_min.mp hstop
  refine ⟨Nat.div_eq_of_lt_le (by rw [Nat.mul_comm]; exact hstart)
    (by rw [Nat.mul_comm]; exact hless.1), hless.2⟩

theorem ranges_tile (h : 1 ≤ size) : Tiles size (ranges size) := by
  obtain ⟨hcount, hinside, hends⟩ := partPlan_count h
  have hpositive : 0 < MULTIPART_THRESHOLD_BYTES := by decide
  rw [ranges_eq]
  obtain ⟨last, hlast⟩ := Nat.exists_eq_add_of_le' hcount
  refine ⟨?_, ?_, ?_, ?_, ?_, ?_⟩
  · intro range hmem
    obtain ⟨number, hnumber, rfl⟩ := List.mem_map.mp hmem
    exact (rangeAt_length h (List.mem_range.mp hnumber)).2.2
  · rw [hlast, List.range_succ_eq_map]
    simp [rangeAt]
  · rw [List.isChain_iff_getElem]
    intro index hindex
    rw [List.length_map, List.length_range] at hindex
    have hless : MULTIPART_THRESHOLD_BYTES * (index + 1) ≤
        MULTIPART_THRESHOLD_BYTES * ((partPlan size).1 - 1) :=
      Nat.mul_le_mul_left _ (by omega)
    simp only [List.getElem_map, List.getElem_range, rangeAt]
    exact Nat.min_eq_left (by omega)
  · rw [hlast, List.range_succ, List.map_append, List.map_singleton, List.getLast?_concat,
      Option.map_some, rangeAt, ← hlast, Nat.min_eq_right hends]
  · intro byte
    constructor
    · rintro ⟨range, hmem, hin⟩
      obtain ⟨number, -, rfl⟩ := List.mem_map.mp hmem
      exact (in_rangeAt hin).2
    · intro hbyte
      have hdiv := Nat.div_add_mod byte MULTIPART_THRESHOLD_BYTES
      have hmod := Nat.mod_lt byte hpositive
      refine ⟨rangeAt size (byte / MULTIPART_THRESHOLD_BYTES),
        List.mem_map_of_mem (List.mem_range.mpr ?_), ?_, ?_⟩
      · apply Nat.div_lt_of_lt_mul
        omega
      · exact Nat.mul_div_le _ _
      · rw [rangeAt]
        dsimp only
        rw [Nat.mul_succ]
        omega
  · intro byte range hrange other hother hstart hstop hotherStart hotherStop
    obtain ⟨number, -, rfl⟩ := List.mem_map.mp hrange
    obtain ⟨number', -, rfl⟩ := List.mem_map.mp hother
    rw [← (in_rangeAt ⟨hstart, hstop⟩).1, ← (in_rangeAt ⟨hotherStart, hotherStop⟩).1]

/-- A file's parts are the same on both sides: the app cuts the file into the parts the server
plans, each as long as the server says it is and lets it be, they tile the file, and nothing
subtracted on the way is more than what it is subtracted from, nor is the count cut to 32 bits. -/
theorem parts_agree (h : 1 ≤ size) (hmax : size ≤ MAX_FILE_BYTES) :
    (ranges size).map PartRange.number = (List.range (partPlan size).1).map (· + 1) ∧
    Tiles size (ranges size) ∧
      (∀ range ∈ ranges size, partLen size range.number = some (range.stop - range.start) ∧
        putPart size range.number = some (range.stop - range.start)) ∧
      (∀ number, partLen size number = none ↔ number = 0 ∨ (partPlan size).1 < number) ∧
      (partPlan size).1 < 2 ^ 32 ∧ 1 ≤ (partPlan size).1 ∧
      (partPlan size).2 * ((partPlan size).1 - 1) ≤ size := by
  obtain ⟨hcount, hinside, hends⟩ := partPlan_count h
  refine ⟨ranges_numbers, ranges_tile h, ?_, ?_, ?_, hcount, ?_⟩
  · intro range hmem
    rw [ranges_eq] at hmem
    obtain ⟨number, hnumber, rfl⟩ := List.mem_map.mp hmem
    obtain ⟨hlength, hsame, -⟩ := rangeAt_length h (List.mem_range.mp hnumber)
    exact ⟨hlength, hsame.trans hlength⟩
  · intro number
    rw [partLen]
    split
    · next hout => exact iff_of_true rfl hout
    · next hin =>
      refine iff_of_false ?_ hin
      split <;> simp
  · unfold MULTIPART_THRESHOLD_BYTES at hinside
    unfold MAX_FILE_BYTES at hmax
    omega
  · rw [partPlan_size]
    exact hinside.le

/-- A file of one part and a byte. -/
theorem parts_agree_two :
    Tiles (MULTIPART_THRESHOLD_BYTES + 1) (ranges (MULTIPART_THRESHOLD_BYTES + 1)) :=
  (parts_agree (by decide) (by decide)).2.1

end Linger.UploadParts
