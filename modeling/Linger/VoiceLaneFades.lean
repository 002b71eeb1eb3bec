import Linger.VoiceLane

/-! The fade out of a lane that runs dry and the fade in of the frame after, neither of which jumps,
and what a lane keeps between them. -/
namespace Linger.VoiceLane
open Crossfade

/-- One sample of the fade out. -/
def ease (tail : ℤ) : ℤ := (tail * 63).tdiv 64

theorem ease_of_nonneg {tail : ℤ} (h : 0 ≤ tail) : ease tail = tail * 63 / 64 :=
  Int.tdiv_eq_ediv_of_nonneg (by omega)

theorem ease_of_nonpos {tail : ℤ} (h : tail ≤ 0) : ease tail = -(-tail * 63 / 64) := by
  obtain ⟨up, rfl⟩ : ∃ up, tail = -up := ⟨-tail, by omega⟩
  rw [ease, Int.neg_mul, Int.neg_tdiv, Int.tdiv_eq_ediv_of_nonneg (by omega), neg_neg]

/-- It falls toward zero, and not beyond. -/
theorem ease_mem (tail : ℤ) : min tail 0 ≤ ease tail ∧ ease tail ≤ max tail 0 := by
  rcases le_total 0 tail with h | h
  · rw [ease_of_nonneg h]
    omega
  · rw [ease_of_nonpos h]
    omega

theorem abs_ease_le (tail : ℤ) : |ease tail| ≤ |tail| := by
  have hmem := ease_mem tail
  rcases le_total 0 tail with h | h
  · rw [abs_of_nonneg h, abs_of_nonneg (by omega)]
    omega
  · rw [abs_of_nonpos h, abs_of_nonpos (by omega)]
    omega

theorem ease_near (tail : ℤ) : 64 * |ease tail - tail| ≤ |tail| + 64 := by
  rcases le_total 0 tail with h | h
  · rw [ease_of_nonneg h, abs_of_nonneg h, abs_of_nonpos (by omega)]
    omega
  · rw [ease_of_nonpos h, abs_of_nonpos h, abs_of_nonneg (by omega)]
    omega

/-- What was left of the last sample after so many samples of the fade out. -/
def faded (last : ℤ) (samples : ℕ) : ℤ := ease^[samples] last

theorem faded_succ (last : ℤ) (samples : ℕ) :
    faded last (samples + 1) = ease (faded last samples) :=
  Function.iterate_succ_apply' ease samples last

theorem abs_faded_le (last : ℤ) (samples : ℕ) : |faded last samples| ≤ |last| := by
  induction samples with
  | zero => exact le_rfl
  | succ samples ih =>
    rw [faded_succ]
    exact (abs_ease_le _).trans ih

theorem faded_step (last : ℤ) (samples : ℕ) :
    |((faded last (samples + 1) : ℤ) : ℚ) - faded last samples| ≤ |(last : ℚ)| / 64 + 1 := by
  have hnear := ease_near (faded last samples)
  have hle := abs_faded_le last samples
  have h : (64 : ℚ) * |((faded last (samples + 1) : ℤ) : ℚ) - faded last samples| ≤
      |(last : ℚ)| + 64 := by
    rw [faded_succ]
    exact_mod_cast hnear.trans (by omega)
  linarith

/-- The fade out, the latest first. -/
def fadings (last : ℤ) : ℕ → List Heard
  | 0 => []
  | samples + 1 => .fading (faded last (samples + 1)) :: fadings last samples

theorem fadings_takeWhile (last : ℤ) (samples : ℕ) (sample : ℤ) (older : List Heard) :
    (fadings last samples ++ .voice sample :: older).takeWhile Heard.isFading =
    fadings last samples := by
  induction samples with
  | zero => rfl
  | succ samples ih =>
    rw [fadings, List.cons_append, List.takeWhile_cons_of_pos rfl, ih]

theorem fadings_find (last : ℤ) (samples : ℕ) (sample : ℤ) (older : List Heard) :
    (fadings last samples ++ .voice sample :: older).find? (fun heard => !heard.isFading) =
    some (.voice sample) := by
  induction samples with
  | zero => rfl
  | succ samples ih => simpa [fadings, Heard.isFading] using ih

/-- The last sample and its fade out, in order, and what came of it at the end. -/
theorem fadings_smooth {last : ℤ} {most : ℚ} (hmost : |(last : ℚ)| / 64 + 1 ≤ most) (samples : ℕ) :
    Smooth most (last :: ((fadings last samples).map Heard.sample).reverse) ∧
      (last :: ((fadings last samples).map Heard.sample).reverse).getLast? =
        some (faded last samples) := by
  induction samples with
  | zero => exact ⟨List.isChain_singleton _, rfl⟩
  | succ samples ih =>
    have hcons : last :: ((fadings last (samples + 1)).map Heard.sample).reverse =
        (last :: ((fadings last samples).map Heard.sample).reverse) ++
          [faded last (samples + 1)] := by
      simp [fadings, Heard.sample]
    rw [hcons]
    refine ⟨List.IsChain.append ih.1 (List.isChain_singleton _) ?_, List.getLast?_concat⟩
    intro before hbefore next hnext
    rw [ih.2] at hbefore
    cases hbefore
    cases hnext
    exact (faded_step last samples).trans hmost

section Feed
variable {lane : Lane} {frame : List Sample}

theorem headStart_pos (lane : Lane) : 0 < perMs * lane.headStart := by
  have hcushion : cushionMs ≤ lane.headStart := by
    unfold Lane.headStart
    exact le_min (le_max_right _ _) (by decide)
  apply Nat.mul_pos (by decide)
  exact Nat.lt_of_lt_of_le (by decide) hcushion

theorem topUp_queue_ne_nil (lane : Lane) : lane.topUp.queue ≠ [] := by
  intro hnil
  have hlen := congrArg List.length hnil
  have hpos := headStart_pos lane
  simp only [Lane.topUp, List.length_append, List.length_replicate, List.length_nil] at hlen
  omega

/-- What a frame finds when it is queued. -/
structure Readied (lane readied : Lane) (hole : Option Hole) : Prop where
  gain : readied.gain = lane.gain
  tail : readied.tail = lane.tail
  starved : readied.starved = 0
  skipped : readied.skipped = false
  fresh : readied.fresh = false
  queue : ∃ samples, readied.queue = lane.queue ++ List.replicate samples silence
  filled : lane.fresh = true ∨ 0 < lane.starved → readied.queue ≠ []
  dry : hole.isSome → lane.fresh = false ∧ 0 < lane.starved

theorem ready_readied (lane : Lane) : Readied lane lane.ready.1 lane.ready.2 := by
  unfold Lane.ready
  dsimp only
  split
  · exact ⟨rfl, rfl, rfl, rfl, rfl, ⟨_, rfl⟩, fun _ => topUp_queue_ne_nil _, fun h => by cases h⟩
  · next hrun =>
    obtain ⟨hfresh, hrest⟩ := not_or.mp hrun
    split
    · next hskipped =>
      refine ⟨rfl, rfl, rfl, rfl, rfl, ⟨0, by simp⟩, ?_, fun h => by cases h⟩
      rintro (hnew | hdry)
      · exact absurd hnew hfresh
      · exact absurd (Or.inl ⟨hskipped, hdry⟩) hrest
    · split
      · next hdry =>
        exact ⟨rfl, rfl, rfl, rfl, rfl, ⟨_, rfl⟩, fun _ => topUp_queue_ne_nil _,
          fun _ => ⟨by simpa using hfresh, hdry⟩⟩
      · next hdry =>
        refine ⟨rfl, rfl, rfl, rfl, rfl, ⟨0, by simp [Lane.learn]⟩, ?_, fun h => by cases h⟩
        rintro (hnew | hstarved)
        · exact absurd hnew hfresh
        · exact absurd hstarved hdry

/-- The frame's samples as they are queued. -/
def Lane.queued (lane : Lane) (frame : List Sample) : List Sample :=
  if lane.ready.2.isSome then fadeFrom lane.tail 0 frame else frame

theorem fadeFrom_length (tail : ℤ) (part : ℕ) (samples : List Sample) :
    (fadeFrom tail part samples).length = samples.length := by
  induction samples generalizing part with
  | nil => rfl
  | cons sample samples ih => simp [fadeFrom, ih]

theorem queued_length (lane : Lane) (frame : List Sample) :
    (lane.queued frame).length = frame.length := by
  unfold Lane.queued
  split
  · exact fadeFrom_length _ _ _
  · rfl

theorem withQueue_rest (lane : Lane) (queue : List Sample) :
    (lane.withQueue queue).gain = lane.gain ∧
    (lane.withQueue queue).tail = lane.tail ∧ (lane.withQueue queue).starved = lane.starved ∧
      (lane.withQueue queue).fresh = lane.fresh := ⟨rfl, rfl, rfl, rfl⟩

theorem feed_queue (hgain : lane.gain = 1) :
    (lane.feed frame).1.queue =
    (lane.ready.1.queue ++ lane.queued frame).drop (lane.thrownBy frame) := by
  have hscale : |lane.gain - 1| < 1 / 2 ^ 23 := by
    rw [hgain]
    norm_num
  have hready := ready_readied lane
  simp only [Lane.feed, if_pos hscale, Lane.withQueue, Lane.thrownBy, hready.tail]
  rw [← queued_length lane frame, ← List.length_append]
  rfl

theorem feed_rest (lane : Lane) (frame : List Sample) :
    (lane.feed frame).1.gain = lane.gain ∧ (lane.feed frame).1.tail = lane.tail ∧
      (lane.feed frame).1.starved = 0 ∧ (lane.feed frame).1.fresh = false ∧
      (lane.feed frame).2 = lane.ready.2 := by
  have hready := ready_readied lane
  unfold Lane.feed
  dsimp only
  obtain ⟨hgain, htail, hstarved, hfresh⟩ := withQueue_rest lane.ready.1 _
  exact ⟨hgain.trans hready.gain, htail.trans hready.tail, hstarved.trans hready.starved,
    hfresh.trans hready.fresh, rfl⟩

theorem feed_skipped (lane : Lane) (frame : List Sample) : (lane.feed frame).1.skipped = false := by
  have hskipped :
      ∀ (lane : Lane) (queue : List Sample), (lane.withQueue queue).skipped = lane.skipped :=
    fun _ _ => rfl
  unfold Lane.feed
  dsimp only
  rw [hskipped]
  exact (ready_readied lane).skipped

end Feed

/-- What is so of every lane: where its tail comes from. -/
structure Inv (ear : Ear) : Prop where
  gain : ear.lane.gain = 1
  range : -32768 ≤ ear.lane.tail ∧ ear.lane.tail ≤ 32767
  filled : ear.lane.queue ≠ [] → ear.lane.starved = 0
  dry : ear.lane.fresh = false → ear.lane.queue = [] → ∃ last older,
    ear.heard = fadings last ear.lane.starved ++ .voice last :: older ∧
      ear.lane.tail = faded last ear.lane.starved

theorem Inv.feed {ear : Ear} (h : Inv ear) (frame : List Sample) :
    Inv ⟨(ear.lane.feed frame).1, ear.heard⟩ := by
  obtain ⟨hgain, htail, hstarved, -, -⟩ := feed_rest ear.lane frame
  have hready := ready_readied ear.lane
  have hrange := h.range
  rw [← htail] at hrange
  refine ⟨hgain.trans h.gain, hrange, fun _ => hstarved, ?_⟩
  intro _ hnil
  dsimp only at hnil
  -- What is thrown away leaves some, so the queue was empty as the frame came, and so was the
  -- frame.
  have hempty : ear.lane.ready.1.queue = [] := by
    rw [feed_queue h.gain, List.drop_eq_nil_iff, List.length_append, queued_length] at hnil
    have hcap : 0 < perMs * maxQueuedMs := by decide
    unfold Lane.thrownBy at hnil
    apply List.eq_nil_of_length_eq_zero
    omega
  obtain ⟨samples, hqueue⟩ := hready.queue
  have hnone : ear.lane.queue = [] := (List.append_eq_nil_iff.mp (hqueue ▸ hempty)).1
  have hrun : ¬ (ear.lane.fresh = true ∨ 0 < ear.lane.starved) :=
    fun hfilled => hready.filled hfilled hempty
  have hfresh : ear.lane.fresh = false := by
    have := (not_or.mp hrun).1
    simpa using this
  obtain ⟨last, older, hheard, hlast⟩ := h.dry hfresh hnone
  have hwaited : ear.lane.starved = 0 := by
    have := (not_or.mp hrun).2
    omega
  rw [hwaited] at hheard hlast
  exact ⟨last, older, by rw [hstarved]; exact hheard, by rw [hstarved, htail]; exact hlast⟩

theorem Inv.pull {ear : Ear} (h : Inv ear) : Inv (ear.on .pull) := by
  unfold Ear.on Lane.on Lane.pull
  dsimp only
  cases hqueue : ear.lane.queue with
  | cons sample queue =>
    dsimp only
    have hstarved : ear.lane.starved = 0 := h.filled (by simp [hqueue])
    refine ⟨h.gain, sample.2, fun _ => hstarved, ?_⟩
    intro _ _
    refine ⟨sample.1, ear.heard, ?_, ?_⟩
    · simp [hstarved, fadings]
    · simp [hstarved, faded]
  | nil =>
    have hmem := ease_mem ear.lane.tail
    have hrange := h.range
    refine ⟨h.gain, ?_, fun hne => absurd rfl hne, ?_⟩
    · change -32768 ≤ ease ear.lane.tail ∧ ease ear.lane.tail ≤ 32767
      omega
    · intro hfresh _
      obtain ⟨last, older, hheard, hlast⟩ := h.dry hfresh hqueue
      refine ⟨last, older, ?_, ?_⟩
      · rw [if_pos rfl, hheard, fadings, faded_succ, ← hlast]
        rfl
      · rw [faded_succ, ← hlast]
        rfl

theorem Inv.on {ear : Ear} (h : Inv ear) (moment : Moment) : Inv (ear.on moment) := by
  cases moment with
  | feed frame => exact h.feed frame
  | resume => exact ⟨h.gain, h.range, h.filled, h.dry⟩
  | pull => exact h.pull

theorem after_inv (moments : List Moment) : Inv (Ear.after moments) := by
  induction moments using List.reverseRecOn with
  | nil => exact ⟨rfl, by decide, fun _ => rfl, fun h => by cases h⟩
  | append_singleton moments moment ih =>
    unfold Ear.after
    rw [List.foldl_concat]
    exact ih.on moment

/-- Once a lane has run dry, what was heard since its last sample is that sample's fade out, and the
tail what has come of it. -/
theorem Inv.sinceLast {ear : Ear} (h : Inv ear) (hfresh : ear.lane.fresh = false)
    (hdry : 0 < ear.lane.starved) :
    ∃ last samples, ear.last = last ∧ ear.lane.tail = faded last samples ∧
      ear.sinceLast = last :: ((fadings last samples).map Heard.sample).reverse := by
  have hqueue : ear.lane.queue = [] := by
    by_contra hne
    have := h.filled hne
    omega
  obtain ⟨last, older, hheard, htail⟩ := h.dry hfresh hqueue
  have hlast : ear.last = last := by
    rw [Ear.last, hheard, fadings_find]
    rfl
  refine ⟨last, ear.lane.starved, hlast, htail, ?_⟩
  rw [Ear.sinceLast, hlast, hheard, fadings_takeWhile]

section Across
attribute [local irreducible] Lane.thrownBy Lane.feed

variable {lane : Lane} {gap : Gap} {moments : List Moment} {most : ℚ}

theorem Quiet.silence_pos (h : Quiet lane gap moments) : 0 < gap.silence := by
  induction moments generalizing lane gap with
  | nil => exact h.elim
  | cons moment moments ih =>
    cases moment with
    | feed frame =>
      have hleft : 0 < (gap.drop (lane.thrownBy frame)).silence := ih h
      unfold Gap.drop at hleft
      dsimp only at hleft
      omega
    | resume => exact @ih _ gap h
    | pull => exact h

/-- What a later frame does to the queue: only silence at its front goes. -/
theorem feed_front {silent : ℕ} {front rest : List Sample} (hgain : lane.gain = 1)
    (hqueue : lane.queue = List.replicate silent silence ++ front ++ rest) {frame : List Sample}
    (hthrown : lane.thrownBy frame ≤ silent) : ∃ later, (lane.feed frame).1.queue =
      List.replicate (silent - lane.thrownBy frame) silence ++ front ++ later := by
  obtain ⟨samples, hready⟩ := (ready_readied lane).queue
  refine ⟨rest ++ List.replicate samples silence ++ lane.queued frame, ?_⟩
  rw [feed_queue hgain, hready, hqueue]
  simp only [List.append_assoc]
  rw [List.drop_append_of_le_length (by rwa [List.length_replicate]), List.drop_replicate]

theorem drop_gap {silent front thrown : ℕ} (hgap : gap = ⟨silent, silent + front⟩)
    (hfits : thrown ≤ silent) :
    gap.drop thrown = ⟨silent - thrown, silent - thrown + front⟩ := by
  rw [hgap]
  simp only [Gap.drop, Gap.mk.injEq, true_and]
  omega

/-- A pull takes the front of the queue. -/
theorem pull_cons {sample : Sample} {queue : List Sample} (h : lane.queue = sample :: queue) :
    lane.pull.tail = sample.1 ∧ lane.pull.queue = queue ∧ lane.pull.gain = lane.gain := by
  unfold Lane.pull
  rw [h]
  exact ⟨rfl, rfl, rfl⟩

/-- Silence, and then what plays behind it, with nothing that jumps in or between them. -/
theorem across_smooth (hmost : 0 ≤ most) {silent : ℕ} {front rest : List Sample}
    (hgain : lane.gain = 1)
    (hqueue : lane.queue = List.replicate silent silence ++ front ++ rest)
    (hgap : gap = ⟨silent, silent + front.length⟩) (hspares : Spares lane gap moments)
    (hfront : Smooth most (front.map fun sample => sample.1)) {before : ℤ}
    (hinto : ∀ sample ∈ front.head?, |(sample.1 : ℚ) - before| ≤ most)
    (hquiet : Quiet lane gap moments →
      |(before : ℚ)| ≤ most ∧ ∀ sample ∈ front.head?, |(sample.1 : ℚ)| ≤ most) :
    Smooth most (before :: across lane gap moments) := by
  -- Over the moments: what is left of the silence, and of what plays behind it, is the front of the
  -- queue.
  induction moments generalizing lane gap silent front rest before with
  | nil => exact List.isChain_singleton _
  | cons moment moments ih =>
    unfold across
    split
    · exact List.isChain_singleton _
    · next hleft =>
      obtain ⟨hthrown, hlater⟩ := Or.resolve_left hspares hleft
      cases moment with
      | feed frame =>
        have hfits : lane.thrownBy frame ≤ silent := by
          have := hthrown frame rfl
          rwa [hgap] at this
        obtain ⟨later, hqueue'⟩ := feed_front hgain hqueue hfits
        exact ih ((feed_rest lane frame).1.trans hgain) hqueue'
          (drop_gap hgap hfits) hlater hfront hinto hquiet
      | resume =>
        exact @ih lane.resume gap silent front rest hgain hqueue hgap hlater hfront before hinto
          hquiet
      | pull =>
        dsimp only
        cases silent with
        | succ silent =>
          rw [List.replicate_succ, List.cons_append, List.cons_append] at hqueue
          obtain ⟨htail, hqueue', hgain'⟩ := pull_cons hqueue
          obtain ⟨hbefore, hhead⟩ := hquiet (by rw [hgap]; exact Nat.succ_pos silent)
          have hzero : lane.pull.tail = 0 := htail
          have hgap' : gap.drop 1 = ⟨silent, silent + front.length⟩ :=
            drop_gap hgap (Nat.le_add_left 1 silent)
          rw [hzero]
          have hhead' : ∀ sample ∈ front.head?, |(sample.1 : ℚ) - (0 : ℤ)| ≤ most := by
            simpa using hhead
          have hlater' := ih (hgain'.trans hgain) hqueue' hgap' hlater hfront hhead'
            (fun _ => ⟨by simpa using hmost, hhead⟩)
          apply List.IsChain.cons_cons _ hlater'
          simpa using hbefore
        | zero =>
          cases front with
          | nil => exact absurd (by rw [hgap]; rfl) hleft
          | cons sample front =>
            obtain ⟨htail, hqueue', hgain'⟩ := pull_cons hqueue
            have hgap' : gap.drop 1 = ⟨0, 0 + front.length⟩ := by
              rw [hgap]
              simp only [Gap.drop, Gap.mk.injEq, List.length_cons, true_and]
              omega
            have hnext : ∀ next ∈ front.head?, |(next.1 : ℚ) - sample.1| ≤ most := by
              intro next hnext
              apply List.IsChain.rel_head? hfront
              rw [List.head?_map]
              exact Option.mem_map_of_mem _ hnext
            have hquiet' : ¬ Quiet lane.pull (gap.drop 1) moments := by
              intro hlater'
              have hpos := hlater'.silence_pos
              rw [hgap'] at hpos
              exact Nat.lt_irrefl 0 hpos
            rw [htail]
            have hlater' := ih (hgain'.trans hgain) hqueue' hgap' hlater hfront.tail hnext
              (fun h => absurd h hquiet')
            exact List.IsChain.cons_cons (hinto sample rfl) hlater'

/-- When some of the silence is heard, it is heard first. -/
theorem across_quiet {silent : ℕ} {front rest : List Sample} (hgain : lane.gain = 1)
    (hqueue : lane.queue = List.replicate silent silence ++ front ++ rest)
    (hgap : gap = ⟨silent, silent + front.length⟩) (hspares : Spares lane gap moments)
    (hquiet : Quiet lane gap moments) : ∃ following, across lane gap moments = 0 :: following := by
  induction moments generalizing lane gap silent rest with
  | nil => exact hquiet.elim
  | cons moment moments ih =>
    have hpos := hquiet.silence_pos
    rw [hgap] at hpos
    have hleft : gap.left ≠ 0 := by
      rw [hgap]
      dsimp only at hpos ⊢
      omega
    obtain ⟨hthrown, hlater⟩ := Or.resolve_left hspares hleft
    rw [across, if_neg hleft]
    cases moment with
    | feed frame =>
      have hfits : lane.thrownBy frame ≤ silent := by
        have := hthrown frame rfl
        rwa [hgap] at this
      obtain ⟨later, hqueue'⟩ := feed_front hgain hqueue hfits
      exact ih ((feed_rest lane frame).1.trans hgain) hqueue' (drop_gap hgap hfits) hlater hquiet
    | resume => exact @ih lane.resume gap silent rest hgain hqueue hgap hlater hquiet
    | pull =>
      obtain ⟨more, rfl⟩ : ∃ more, silent = more + 1 := ⟨silent - 1, by dsimp only at hpos; omega⟩
      rw [List.replicate_succ, List.cons_append, List.cons_append] at hqueue
      exact ⟨_, congrArg (· :: _) (pull_cons hqueue).1⟩

end Across

section FadeIn
variable {tail last : ℤ} {frame : List Sample}

theorem toSample_of_mem {value : ℚ} (hlow : ((-32768 : ℤ) : ℚ) ≤ value)
    (hhigh : value ≤ (32767 : ℤ)) :
    (toSample value).1 = trunc value := by
  have hlow' := le_trunc hlow
  have hhigh' := trunc_le hhigh
  simp only [toSample]
  omega

/-- Neighbours of the fade in. -/
theorem fadeIn_step {first next : Sample} {part : ℕ} (hpart : part + 1 < fadeLen)
    (htail : -32768 ≤ tail ∧ tail ≤ 32767) :
    |((toSample (mixed tail fadeLen (part + 1) next.1)).1 : ℚ) -
      (toSample (mixed tail fadeLen part first.1)).1| ≤
      |(next.1 : ℚ) - first.1| + (|(tail : ℚ)| + |(first.1 : ℚ)|) / fadeLen + 1 := by
  obtain ⟨hlow, hhigh⟩ := mixed_mem (Nat.le_of_lt hpart) htail next.2
  obtain ⟨hlow', hhigh'⟩ := mixed_mem (Nat.le_of_lt (Nat.lt_of_succ_lt hpart)) htail first.2
  rw [toSample_of_mem hlow hhigh, toSample_of_mem hlow' hhigh']
  calc _ ≤ |mixed tail fadeLen (part + 1) next.1 - mixed tail fadeLen part first.1| + 1 :=
    abs_trunc_sub_le _ _
    _ ≤ _ := add_le_add_left (abs_mixed_sub_le (Nat.le_of_lt hpart)) 1

theorem le_foldr_max {sizes : List ℕ} {size : ℕ} (h : size ∈ sizes) : size ≤ sizes.foldr max 0 := by
  induction sizes with
  | nil => cases h
  | cons other sizes ih =>
    rw [List.foldr_cons]
    rcases List.mem_cons.mp h with rfl | h
    · exact le_max_left _ _
    · exact (ih h).trans (le_max_right _ _)

theorem le_loudest {sample : Sample} (h : sample ∈ frame) : |(sample.1 : ℚ)| ≤ loudest frame := by
  have hle : sample.1.natAbs ≤ loudest frame := le_foldr_max (List.mem_map_of_mem h)
  calc |(sample.1 : ℚ)| = ((sample.1.natAbs : ℕ) : ℚ) := by
        rw [Nat.cast_natAbs, Int.cast_abs]
    _ ≤ _ := by exact_mod_cast hle

/-- Neighbours of a frame differ by its steepest at most. -/
theorem steepest_chain (frame : List Sample) :
    frame.IsChain fun first next => |(next.1 : ℚ) - first.1| ≤ steepest frame := by
  induction frame with
  | nil => exact List.isChain_nil
  | cons first rest ih =>
    cases rest with
    | nil => exact List.isChain_singleton _
    | cons next rest =>
      have hsteepest : steepest (first :: next :: rest) =
          max (next.1 - first.1).natAbs (steepest (next :: rest)) := rfl
      apply List.IsChain.cons_cons
      · have hle : (next.1 - first.1).natAbs ≤ steepest (first :: next :: rest) :=
          hsteepest ▸ le_max_left _ _
        calc |(next.1 : ℚ) - first.1| = (((next.1 - first.1).natAbs : ℕ) : ℚ) := by
              rw [Nat.cast_natAbs, Int.cast_abs, Int.cast_sub]
          _ ≤ _ := by exact_mod_cast hle
      · apply ih.imp
        intro a b h
        apply h.trans
        exact_mod_cast hsteepest ▸ le_max_right _ _

/-- The fade in has no jump but what the frame's own samples have, and an even share of the rest of
the way. -/
theorem fadeIn_smooth {jump loud : ℚ} (htail : -32768 ≤ tail ∧ tail ≤ 32767) {part : ℕ}
    (hchain : frame.IsChain fun first next => |(next.1 : ℚ) - first.1| ≤ jump)
    (hloud : ∀ sample ∈ frame.take (fadeLen - part), |(sample.1 : ℚ)| ≤ loud) :
    Smooth (jump + (|(tail : ℚ)| + loud) / fadeLen + 1)
      (((fadeFrom tail part frame).take (fadeLen - part)).map fun sample => sample.1) := by
  -- Over the frame, as long as the fade goes on.
  induction frame generalizing part with
  | nil =>
    rw [fadeFrom, List.take_nil]
    exact List.isChain_nil
  | cons first rest ih =>
    obtain hover | hpart := Nat.lt_or_ge part fadeLen |>.symm
    · rw [Nat.sub_eq_zero_of_le hover, List.take_zero]
      exact List.isChain_nil
    · obtain ⟨left, hleft⟩ : ∃ left, fadeLen - part = left + 1 := ⟨fadeLen - part - 1, by omega⟩
      have hleft' : fadeLen - (part + 1) = left := by omega
      rw [hleft, List.take_succ_cons] at hloud
      have hrest := @ih (part + 1) hchain.tail (by
        rw [hleft']
        exact fun sample hin => hloud sample (List.mem_cons_of_mem _ hin))
      rw [hleft'] at hrest
      rw [hleft, fadeFrom, List.take_succ_cons, List.map_cons, if_pos hpart]
      apply List.IsChain.cons hrest
      intro next hnext
      cases rest with
      | nil => simp [fadeFrom] at hnext
      | cons second rest =>
        cases left with
        | zero => simp at hnext
        | succ left =>
          have hmore : part + 1 < fadeLen := by omega
          rw [fadeFrom, List.take_succ_cons, List.map_cons, if_pos hmore] at hnext
          cases hnext
          apply (fadeIn_step hmore htail).trans
          have hjump := hchain.rel_head? rfl
          have hfirst := hloud first List.mem_cons_self
          have hshare :
              (|(tail : ℚ)| + |(first.1 : ℚ)|) / fadeLen ≤ (|(tail : ℚ)| + loud) / fadeLen := by
            apply div_le_div_of_nonneg_right _ (Nat.cast_nonneg _)
            linarith
          linarith

end FadeIn

end Linger.VoiceLane
