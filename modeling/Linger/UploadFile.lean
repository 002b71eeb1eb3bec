import Linger.Uploads

/-! How the app puts a file on the server: part by part, each with a few goes, and then asking for
it to be completed. -/
namespace Linger.UploadFile
open Uploads

/-- How many goes one part gets. -/
def PART_ATTEMPTS : ℕ := 3

/-- How many more times a file the server was too busy to finish is completed. -/
def BUSY_ATTEMPTS : ℕ := 3

def BUSY_WAIT_MOST_MS : ℕ := 30000

abbrev Etag := String

/-- One part's slice of the file. -/
structure PartRange where
  number : ℕ
  start : ℕ
  stop : ℕ
  deriving DecidableEq

section Plan

/-- The slices from `start` on. Each takes a byte at least, so there are no more of them than
bytes. -/
def rangesFrom (size partSize : ℕ) : ℕ → ℕ → ℕ → List PartRange
  | 0, _, _ => []
  | fuel + 1, start, number =>
    if start < size then
      ⟨number, start, min (start + partSize) size⟩ ::
        rangesFrom size partSize fuel (start + partSize) (number + 1)
    else []

def partRanges (size partSize : ℕ) : List PartRange :=
  if size ≤ partSize then [⟨1, 0, size⟩] else rangesFrom size partSize size 0 1

/-- Where a file goes: one URL, or one for each part. -/
structure UploadSlot where
  partSizeBytes : ℕ
  parts : Option (List ℕ)

/-- The slot the server gives a file of a size. -/
def slotOf (sizeBytes : ℕ) : UploadSlot where
  partSizeBytes := (partPlan sizeBytes).2
  parts := if 1 < (partPlan sizeBytes).1 then some ((List.range (partPlan sizeBytes).1).map (· + 1))
    else none

/-- Whether there is a URL for a part. -/
def UploadSlot.urlForPart (slot : UploadSlot) (number : ℕ) : Bool :=
  match slot.parts with
  | none => number == 1
  | some parts => parts.contains number

def ranges (sizeBytes : ℕ) : List PartRange := partRanges sizeBytes (slotOf sizeBytes).partSizeBytes

variable {slot : UploadSlot} {size partSize fuel start number : ℕ}

/-- Slices are one after another from `start`, and there are as many as the bytes left need. -/
theorem rangesFrom_eq (hpos : 0 < partSize) (hfuel : size - start ≤ fuel) :
    rangesFrom size partSize fuel start number =
        (List.range ((size - start + partSize - 1) / partSize)).map fun index =>
      ⟨index + number, start + partSize * index, min (start + partSize * (index + 1)) size⟩ := by
  induction fuel generalizing start number with
  | zero =>
    have hnone : (size - start + partSize - 1) / partSize = 0 := by
      apply Nat.div_eq_of_lt
      omega
    rw [hnone, List.range_zero]
    rfl
  | succ fuel ih =>
    rw [rangesFrom]
    split
    · next hstart =>
      have hmore : (size - start + partSize - 1) / partSize =
          (size - (start + partSize) + partSize - 1) / partSize + 1 := by
        by_cases hlast : size ≤ start + partSize
        · have hrest : (size - (start + partSize) + partSize - 1) / partSize = 0 := by
            apply Nat.div_eq_of_lt
            omega
          rw [hrest]
          apply Nat.div_eq_of_lt_le <;> omega
        · have hsplit : size - start + partSize - 1 =
              size - (start + partSize) + partSize - 1 + partSize := by
            omega
          rw [hsplit, Nat.add_div_right _ hpos]
      have hrest : size - (start + partSize) ≤ fuel := by
        omega
      rw [ih hrest, hmore, List.range_succ_eq_map, List.map_cons, List.map_map]
      congr 1
      · rw [Nat.zero_add, Nat.mul_zero, Nat.add_zero, Nat.zero_add, Nat.mul_one]
      · apply List.map_congr_left
        intro index _
        simp only [Function.comp_apply, Nat.succ_eq_add_one, Nat.mul_succ]
        congr 1
        · omega
        · omega
        · congr 1
          omega
    · next hdone =>
      have hnone : (size - start + partSize - 1) / partSize = 0 := by
        apply Nat.div_eq_of_lt
        omega
      rw [hnone, List.range_zero]
      rfl

/-- Slices count up from the first. -/
theorem rangesFrom_numbers (hpos : 0 < partSize) (hfuel : size - start ≤ fuel) :
    (rangesFrom size partSize fuel start number).map PartRange.number =
      (List.range ((size - start + partSize - 1) / partSize)).map (· + number) := by
  rw [rangesFrom_eq hpos hfuel, List.map_map]
  rfl

/-- The app cuts a file into the parts the server plans. -/
theorem ranges_numbers :
    (ranges size).map PartRange.number = (List.range (partPlan size).1).map (· + 1) := by
  have hplan : (partPlan size).2 = MULTIPART_THRESHOLD_BYTES := by
    rw [partPlan]
    split <;> rfl
  have hpos : 0 < MULTIPART_THRESHOLD_BYTES := by decide
  rw [ranges, slotOf, hplan, partRanges, partPlan]
  split
  · rfl
  · exact rangesFrom_numbers hpos (Nat.sub_le size 0)

/-- There is a URL for each. -/
theorem urlForPart_ranges {range : PartRange} (h : range ∈ ranges size) :
    (slotOf size).urlForPart range.number = true := by
  have hmem : range.number ∈ (List.range (partPlan size).1).map (· + 1) := by
    rw [← ranges_numbers]
    exact List.mem_map_of_mem h
  rw [UploadSlot.urlForPart, slotOf]
  by_cases hmany : 1 < (partPlan size).1
  · rw [if_pos hmany]
    exact List.contains_iff_mem.mpr hmem
  · obtain ⟨n, hn, hnumber⟩ := List.mem_map.mp hmem
    have hlt := List.mem_range.mp hn
    rw [if_neg hmany]
    change (range.number == 1) = true
    rw [beq_iff_eq]
    omega

end Plan

section Sending

inductive ErrorCode
  | validationFailed
  | rateLimited
  | other (n : ℕ)
  deriving DecidableEq

/-- Why the server doesn't complete a file: a part it planned isn't there; it is busy with other
pictures, and may say for how long; or the file itself won't do. -/
inductive Refusal
  | neverArrived
  | busy (retryAfterMs : Option ℕ)
  | refused (code : ErrorCode)
  deriving DecidableEq

def Refusal.code : Refusal → ErrorCode
  | .neverArrived => .validationFailed
  | .busy _ => .rateLimited
  | .refused code => code

def Refusal.retryAfterMs : Refusal → Option ℕ
  | .busy wait => wait
  | _ => none

inductive Failure
  | noUrl
  | part (number : ℕ)
  | refused (refusal : Refusal)
  deriving DecidableEq

/-- What the server says of a file that is there whole. -/
inductive Word
  | finished
  | busy (retryAfterMs : Option ℕ)
  | refused (code : ErrorCode)

def Word.answer : Word → Except Refusal Unit
  | .finished => .ok ()
  | .busy wait => .error (.busy wait)
  | .refused code => .error (.refused code)

/-- What comes of each part request there is (the part is in, with the store's tag if it sent one,
or it isn't), which parts are gone when the file is first asked to be completed, and what is said of
it each time it is there whole. -/
structure World where
  put : ℕ → Option (Option Etag)
  lost : List ℕ
  word : ℕ → Word

/-- The parts a store holds, the part requests it has had, and what it was told each time it was
asked to complete. -/
structure Server where
  stored : List ℕ
  requests : ℕ
  told : List (Option (List (ℕ × Etag)))
  cancelled : Bool

/-- What the app has sent, with the tags it was answered with. -/
abbrev Sent := List (ℕ × Option Etag)

def Sent.put (done : Sent) (number : ℕ) (etag : Option Etag) : Sent :=
  if done.any (fun one => one.1 == number) then done.map fun one => if one.1 = number then
    (number, etag) else one
  else done ++ [(number, etag)]

def Sent.has (done : Sent) (number : ℕ) : Bool := done.any fun one => one.1 == number

variable (w : World) (size : ℕ)

/-- One part, with a few goes at it. -/
def putPart (number : ℕ) : ℕ → Server → Server × Option (Option Etag)
  | 0, s => (s, none)
  | attempts + 1, s =>
    match w.put s.requests with
    | some etag =>
      ({ s with requests := s.requests + 1, stored := s.stored ++ [number] }, some etag)
    | none => putPart number attempts { s with requests := s.requests + 1 }

def sendParts : List PartRange → Server → Sent → Server × Except Failure Sent
  | [], s, done => (s, .ok done)
  | range :: ranges, s, done =>
    if (slotOf size).urlForPart range.number then
      match putPart w range.number PART_ATTEMPTS s with
      | (s, some etag) => sendParts ranges s (done.put range.number etag)
      | (s, none) => (s, .error (.part range.number))
    else (s, .error .noUrl)

/-- The tags, handed back only when every part produced one. -/
def completedParts (done : Sent) : Option (List (ℕ × Etag)) :=
  let parts := done.filterMap fun one => one.2.map fun etag => (one.1, etag)
  if parts.length = done.length then some parts else none

/-- Whether every part the server plans is there. -/
def Server.whole (s : Server) : Bool :=
  (List.range (partPlan size).1).all fun n => s.stored.contains (n + 1)

def complete (s : Server) (done : Sent) : Server × Except Refusal Unit :=
  let asked := { s with told := s.told ++ [completedParts done] }
  if s.whole size then (asked, (w.word s.told.length).answer) else (asked, .error .neverArrived)

/-- Complete, and when the server is busy, wait as long as it says and complete again. -/
def completeWhenFree (done : Sent) : ℕ → Server → Server × Except Refusal Unit
  | 0, s => complete w size s done
  | again + 1, s =>
    match complete w size s done with
    | (s, .ok ()) => (s, .ok ())
    | (s, .error refusal) =>
      match refusal.code, refusal.retryAfterMs with
      | .rateLimited, some wait =>
        if BUSY_WAIT_MOST_MS < wait then (s, .error refusal) else completeWhenFree done again s
      | _, _ => (s, .error refusal)

/-- What the store loses, it has lost by the time the file is first asked to be completed. -/
def Server.lose (s : Server) : Server :=
  { s with stored := s.stored.filter fun n => !w.lost.contains n }

def send (s : Server) : Server × Except Failure Unit :=
  match sendParts w size (ranges size) s [] with
  | (s, .error failure) => (s, .error failure)
  | (s, .ok done) =>
    match completeWhenFree w size done BUSY_ATTEMPTS (s.lose w) with
    | (s, .ok ()) => (s, .ok ())
    | (s, .error refusal) =>
      if refusal.code ≠ .validationFailed then (s, .error (.refused refusal))
      else
        let missing := (ranges size).filter fun range => !done.has range.number
        if missing = [] then (s, .error (.refused refusal))
        else
          match sendParts w size missing s done with
          | (s, .error failure) => (s, .error failure)
          | (s, .ok done) =>
            match completeWhenFree w size done BUSY_ATTEMPTS s with
            | (s, .ok ()) => (s, .ok ())
            | (s, .error refusal) => (s, .error (.refused refusal))

/-- Slot, bytes, complete; what fails gives its slot back. -/
def uploadFile : Server × Except Failure Unit :=
  match send w size ⟨[], 0, [], false⟩ with
  | (s, .ok ()) => (s, .ok ())
  | (s, .error failure) => ({ s with cancelled := true }, .error failure)

end Sending

section Sent
variable {w : World} {size number attempts : ℕ} {s s' : Server} {done done' : Sent}
  {etag : Option Etag}
  {rs : List PartRange} {failure : Failure}

theorem has_put {other : ℕ} :
    (done.put number etag).has other = (done.has other || other == number) := by
  rw [Sent.put, Sent.has, Sent.has]
  by_cases hheld : done.any (fun one => one.1 == number) = true
  · rw [if_pos hheld, List.any_map]
    have hsame :
        (fun one : ℕ × Option Etag => (if one.1 = number then (number, etag) else one).1 == other) =
        fun one => one.1 == other := by
      funext one
      split
      · next h => rw [h]
      · rfl
    rw [Function.comp_def, hsame]
    by_cases hother : other = number
    · subst hother
      rw [hheld, Bool.true_or]
    · rw [beq_false_of_ne hother, Bool.or_false]
  · rw [if_neg hheld, List.any_append]
    congr 1
    rw [List.any_cons, List.any_nil, Bool.or_false, Bool.eq_iff_iff, beq_iff_eq, beq_iff_eq]
    exact eq_comm

/-- A part that goes up is in the store, with all that was there. -/
theorem putPart_stored (h : putPart w number attempts s = (s', some etag)) :
    s'.stored = s.stored ++ [number] := by
  induction attempts generalizing s with
  | zero => cases h
  | succ attempts ih =>
    rw [putPart] at h
    split at h
    · cases h
      rfl
    · have hstored := ih h
      exact hstored

/-- What goes up without a failure is in the store, with all that was there, and counted as sent. -/
theorem sendParts_sent (h : sendParts w size rs s done = (s', .ok done')) :
    s'.stored = s.stored ++ rs.map PartRange.number ∧
      ∀ n, done'.has n = (done.has n || (rs.map PartRange.number).contains n) := by
  induction rs generalizing s done with
  | nil =>
    cases h
    simp
  | cons range rs ih =>
    rw [sendParts] at h
    split at h
    · split at h
      · next s₁ etag hput =>
        obtain ⟨hstored, hhas⟩ := ih h
        rw [putPart_stored hput] at hstored
        refine ⟨?_, fun n => ?_⟩
        · rw [hstored, List.map_cons, List.append_assoc]
          rfl
        · rw [hhas, has_put, List.map_cons, List.contains_cons, Bool.or_assoc]
      · cases h
    · cases h

/-- With a URL for each part, only a part can fail. -/
theorem sendParts_failed (hurls : ∀ range ∈ rs, (slotOf size).urlForPart range.number = true)
    (h : sendParts w size rs s done = (s', .error failure)) : ∃ number, failure = .part number := by
  induction rs generalizing s done with
  | nil => cases h
  | cons range rs ih =>
    rw [sendParts, if_pos (hurls range (.head _))] at h
    split at h
    · exact ih (fun r hr => hurls r (.tail _ hr)) h
    · cases h
      exact ⟨range.number, rfl⟩

theorem whole_iff : s.whole size = true ↔ ∀ range ∈ ranges size, range.number ∈ s.stored := by
  rw [Server.whole, List.all_eq_true]
  calc
    (∀ n ∈ List.range (partPlan size).1, s.stored.contains (n + 1) = true) ↔
        ∀ number ∈ (List.range (partPlan size).1).map (· + 1), number ∈ s.stored := by
      simp only [List.forall_mem_map, List.contains_iff_mem]
    _ ↔ ∀ range ∈ ranges size, range.number ∈ s.stored := by
      rw [← ranges_numbers, List.forall_mem_map]

def Server.asked (s : Server) (done : Sent) : Server :=
  { s with told := s.told ++ [completedParts done] }

theorem complete_eq : complete w size s done =
    (s.asked done, if s.whole size then
      (w.word s.told.length).answer else .error .neverArrived) := by
  unfold complete
  cases s.whole size <;> rfl

/-- A file that isn't whole is refused at once. -/
theorem completeWhenFree_missing (again : ℕ) (h : s.whole size = false) :
    completeWhenFree w size done again s = (s.asked done, .error .neverArrived) := by
  cases again with
  | zero =>
    rw [completeWhenFree, complete_eq, h]
    rfl
  | succ again =>
    rw [completeWhenFree, complete_eq, h]
    rfl

/-- A file that is whole stays so, and what comes of it is the server's word. -/
theorem completeWhenFree_whole (again : ℕ) (h : s.whole size = true) :
    (completeWhenFree w size done again s).1.stored = s.stored ∧
      ∃ n, (completeWhenFree w size done again s).2 = (w.word n).answer := by
  induction again generalizing s with
  | zero =>
    rw [completeWhenFree, complete_eq, h]
    exact ⟨rfl, _, rfl⟩
  | succ again ih =>
    rw [completeWhenFree, complete_eq, h, if_pos rfl]
    cases hsaid : w.word s.told.length with
    | finished => exact ⟨rfl, s.told.length, congrArg Word.answer hsaid.symm⟩
    | refused code => cases code <;> exact ⟨rfl, s.told.length, congrArg Word.answer hsaid.symm⟩
    | busy wait =>
      cases wait with
      | none => exact ⟨rfl, s.told.length, congrArg Word.answer hsaid.symm⟩
      | some wait =>
        dsimp only [Word.answer, Refusal.code, Refusal.retryAfterMs]
        split
        · exact ⟨rfl, s.told.length, congrArg Word.answer hsaid.symm⟩
        · have hagain := @ih (s.asked done) h
          exact hagain

end Sent

section Landing
variable (w : World) (size : ℕ)

/-- The first time every part is sent. -/
def firstSent : Server × Except Failure Sent := sendParts w size (ranges size) ⟨[], 0, [], false⟩ []

/-- A part could not be put in its attempts; or every part is there in the end, and what comes of
the file is the server's word on it whole. -/
def Lands : Prop :=
  (∃ number, (uploadFile w size).2 = .error (.part number)) ∨
    (uploadFile w size).1.whole size = true ∧
      ∃ n, (uploadFile w size).2 = (w.word n).answer.mapError .refused

variable {w : World} {size : ℕ}

theorem uploadFile_snd : (uploadFile w size).2 = (send w size ⟨[], 0, [], false⟩).2 := by
  rw [uploadFile]
  split
  · next h => rw [h]
  · next h => rw [h]

theorem uploadFile_whole :
    (uploadFile w size).1.whole size = (send w size ⟨[], 0, [], false⟩).1.whole size := by
  rw [uploadFile]
  split
  · next h => rw [h]
  · next h =>
    rw [h]
    rfl

/-- By the first refusal everything is down as sent, so nothing is sent again. -/
theorem send_sent {s s' : Server} {done : Sent}
    (hfirst : sendParts w size (ranges size) s [] = (s', .ok done)) :
    send w size s = ((completeWhenFree w size done BUSY_ATTEMPTS (s'.lose w)).1,
      (completeWhenFree w size done BUSY_ATTEMPTS (s'.lose w)).2.mapError .refused) := by
  have hsent : ((ranges size).filter fun range => !done.has range.number) = [] := by
    rw [List.filter_eq_nil_iff]
    intro range hrange
    rw [(sendParts_sent hfirst).2]
    simp only [Sent.has, List.any_nil, Bool.false_or, Bool.not_eq_true', Bool.not_eq_false]
    exact List.contains_iff_mem.mpr (List.mem_map_of_mem hrange)
  rw [send, hfirst]
  dsimp only
  cases completeWhenFree w size done BUSY_ATTEMPTS (s'.lose w) with
  | mk answered answer =>
    cases answer with
    | ok => rfl
    | error refusal =>
      simp only [hsent, if_true, ite_self]
      rfl

/-- A part sent at first is still there unless it was lost. -/
theorem lose_whole {s s' : Server} {done : Sent}
    (hfirst : sendParts w size (ranges size) s [] = (s', .ok done)) :
    (s'.lose w).whole size = true ↔ ∀ range ∈ ranges size, range.number ∉ w.lost := by
  rw [whole_iff]
  refine forall₂_congr fun range hrange => ?_
  have hthere : range.number ∈ s'.stored := by
    rw [(sendParts_sent hfirst).1]
    exact List.mem_append_right _ (List.mem_map_of_mem hrange)
  rw [Server.lose, List.mem_filter, Bool.not_eq_true', ← Bool.not_eq_true, List.contains_iff_mem]
  exact and_iff_right hthere

/-- A file lands, or fails for a part that could not be put, just when a part fails at first or none
is lost before the file is first asked to be completed. -/
theorem lands_iff (w : World) (size : ℕ) : Lands w size ↔
    (∃ number, (firstSent w size).2 = .error (.part number)) ∨
    ∀ range ∈ ranges size, range.number ∉ w.lost := by
  rw [Lands, uploadFile_snd, uploadFile_whole, firstSent]
  rcases hfirst : sendParts w size (ranges size) ⟨[], 0, [], false⟩ [] with ⟨s, sent⟩
  cases sent with
  | error failure =>
    obtain ⟨number, rfl⟩ := sendParts_failed (fun _ => urlForPart_ranges) hfirst
    have hsend : (send w size ⟨[], 0, [], false⟩).2 = .error (.part number) := by
      rw [send, hfirst]
    exact iff_of_true (.inl ⟨number, hsend⟩) (.inl ⟨number, rfl⟩)
  | ok done =>
    rw [send_sent hfirst, ← lose_whole hfirst]
    cases hwhole : (s.lose w).whole size with
    | true =>
      obtain ⟨hstored, n, hword⟩ :=
        @completeWhenFree_whole w size (s.lose w) done BUSY_ATTEMPTS hwhole
      refine iff_of_true (.inr ⟨?_, n, congrArg (Except.mapError Failure.refused) hword⟩) (.inr rfl)
      rw [whole_iff, hstored, ← whole_iff]
      exact hwhole
    | false =>
      rw [completeWhenFree_missing _ hwhole]
      apply iff_of_false
      · rintro (⟨number, hpart⟩ | ⟨-, n, hword⟩)
        · cases hpart
        · cases hsaid : w.word n <;> rw [hsaid] at hword <;> cases hword
      · rintro (⟨number, hpart⟩ | hnone)
        · cases hpart
        · cases hnone

/-- Three parts go up, the second is lost, and nothing is sent again. -/
def losing : World := ⟨fun _ => some none, [2], fun _ => .finished⟩

theorem lost_part_given_up :
    (uploadFile losing (3 * MULTIPART_THRESHOLD_BYTES)).2 = .error (.refused .neverArrived) ∧
    (uploadFile losing (3 * MULTIPART_THRESHOLD_BYTES)).1.requests = 3 ∧
    ¬ Lands losing (3 * MULTIPART_THRESHOLD_BYTES) := by
  have hrefused :
      (uploadFile losing (3 * MULTIPART_THRESHOLD_BYTES)).2 = .error (.refused .neverArrived) := by
    decide +kernel
  have hmissing : (uploadFile losing (3 * MULTIPART_THRESHOLD_BYTES)).1.whole
      (3 * MULTIPART_THRESHOLD_BYTES) = false := by
    decide +kernel
  refine ⟨hrefused, by decide +kernel, ?_⟩
  rintro (⟨number, hpart⟩ | ⟨hwhole, -⟩)
  · rw [hrefused] at hpart
    cases hpart
  · rw [hmissing] at hwhole
    cases hwhole

end Landing
end Linger.UploadFile
