import Linger.VoiceLaneFades

/-! Across a gap the lane adds nothing that jumps if, and only if, the fade out had come near enough
to silence when the frame after the gap arrived. -/
namespace Linger.VoiceLane
open Crossfade

section Gaps
attribute [local irreducible] Lane.thrownBy Lane.feed

variable {frame : List Sample}

/-- The frame that answers a hole fades in behind silence. -/
theorem feed_hole {lane : Lane} (hgain : lane.gain = 1) (hqueue : lane.queue = [])
    (hhole : (lane.feed frame).2.isSome)
    (hthrown : lane.thrownBy frame ≤ lane.ready.1.queue.length) :
    (lane.feed frame).1.queue =
      List.replicate (lane.ready.1.queue.length - lane.thrownBy frame) silence ++
        (fadeFrom lane.tail 0 frame).take fadeLen ++ (fadeFrom lane.tail 0 frame).drop fadeLen := by
  obtain ⟨samples, hready⟩ := (ready_readied lane).queue
  rw [hqueue, List.nil_append] at hready
  have hqueued : lane.queued frame = fadeFrom lane.tail 0 frame := by
    rw [Lane.queued, if_pos ((feed_rest lane frame).2.2.2.2 ▸ hhole)]
  rw [feed_queue hgain, hqueued, List.append_assoc, List.take_append_drop,
    List.drop_append_of_le_length hthrown]
  congr 1
  rw [hready, List.length_replicate, List.drop_replicate]

/-- The first sample that fades in is where the fade out had got to. -/
theorem fadeFrom_head {tail : ℤ} (htail : -32768 ≤ tail ∧ tail ≤ 32767) :
    ∀ sample ∈ ((fadeFrom tail 0 frame).take fadeLen).head?, sample.1 = tail := by
  intro sample hin
  cases frame with
  | nil => cases hin
  | cons first rest =>
    obtain ⟨left, hleft⟩ : ∃ left, fadeLen = left + 1 := ⟨143, rfl⟩
    rw [fadeFrom, if_pos (by decide), hleft, List.take_succ_cons] at hin
    cases hin
    obtain ⟨hlow, hhigh⟩ := mixed_mem (Nat.zero_le (left + 1)) htail first.2
    rw [toSample_of_mem hlow hhigh, mixed_zero, trunc_intCast]

/-- The bound allows what the fades do. -/
theorem bound_le (last : ℤ) (frame : List Sample) : |(last : ℚ)| / 64 + 1 ≤ bound last frame ∧
    steepest frame + (|(last : ℚ)| + loudest (frame.take fadeLen)) / fadeLen + 1 ≤
      bound last frame :=
  ⟨add_le_add_left (le_max_left _ _) 1, add_le_add_left (le_max_right _ _) 1⟩

theorem smooth_iff_near {ear : Ear} (hinv : Inv ear) {later : List Moment}
    (hhole : (ear.lane.feed frame).2.isSome)
    (hspares : Spares ear.lane (ear.lane.gap frame) (.feed frame :: later)) :
    Smooth (bound ear.last frame)
      (ear.sinceLast ++ across ear.lane (ear.lane.gap frame) (.feed frame :: later)) ↔
      (Quiet ear.lane (ear.lane.gap frame) (.feed frame :: later) →
        |(ear.lane.tail : ℚ)| ≤ bound ear.last frame) := by
  obtain ⟨-, htail', -, -, hhole'⟩ := feed_rest ear.lane frame
  have hready := ready_readied ear.lane
  obtain ⟨hfresh, hdry⟩ := hready.dry (hhole' ▸ hhole)
  -- A hole: the lane has run dry, its queue is empty.
  have hqueue : ear.lane.queue = [] := by
    by_contra hne
    have := hinv.filled hne
    omega
  obtain ⟨last, samples, hlast, htail, hsince⟩ := hinv.sinceLast hfresh hdry
  have hfill : ear.lane.ready.1.queue ≠ [] := hready.filled (Or.inr hdry)
  have hpos : 0 < ear.lane.ready.1.queue.length := List.length_pos_iff.mpr hfill
  -- The gap is not over yet when the frame comes.
  have hleft : (ear.lane.gap frame).left ≠ 0 := by
    unfold Lane.gap
    dsimp only
    omega
  obtain ⟨hthrown, hlater⟩ := Or.resolve_left hspares hleft
  have hfits : ear.lane.thrownBy frame ≤ ear.lane.ready.1.queue.length := hthrown frame rfl
  obtain ⟨hfadeOut, hend⟩ := fadings_smooth (bound_le last frame).1 samples
  have hmost : 0 ≤ bound last frame := by
    have : 0 ≤ |(last : ℚ)| / 64 := by positivity
    linarith [(bound_le last frame).1]
  have hqueue' := feed_hole hinv.gain hqueue hhole hfits
  have hfrontLen :
      ((fadeFrom ear.lane.tail 0 frame).take fadeLen).length = min fadeLen frame.length := by
    rw [List.length_take, fadeFrom_length]
  have hgap : (ear.lane.gap frame).drop (ear.lane.thrownBy frame) =
      ⟨ear.lane.ready.1.queue.length - ear.lane.thrownBy frame, ear.lane.ready.1.queue.length -
        ear.lane.thrownBy frame + ((fadeFrom ear.lane.tail 0 frame).take fadeLen).length⟩ :=
    drop_gap (by rw [hfrontLen]; rfl) hfits
  have hgain' : (ear.lane.feed frame).1.gain = 1 := (feed_rest ear.lane frame).1.trans hinv.gain
  -- From the frame on, the rest of the gap is in the lane that the frame left.
  have hacross : across ear.lane (ear.lane.gap frame) (.feed frame :: later) =
      across (ear.lane.feed frame).1
        ((ear.lane.gap frame).drop (ear.lane.thrownBy frame)) later := by
    rw [across, if_neg hleft]
    rfl
  rw [hlast, hsince, hacross]
  constructor
  -- If the rest is quiet, a zero comes right after the tail.
  · intro hsmooth hquiet
    obtain ⟨following, hzero⟩ := across_quiet hgain' hqueue' hgap hlater hquiet
    rw [hzero] at hsmooth
    have hjump := (List.isChain_append.mp hsmooth).2.2 _ hend 0 rfl
    rw [htail]
    simpa using hjump
  -- The other way: the frame fades in from the tail, no steeper than the bound.
  · intro hnear
    have hhead := @fadeFrom_head frame _ hinv.range
    have hfadeIn : Smooth (bound last frame)
        (((fadeFrom ear.lane.tail 0 frame).take fadeLen).map fun sample => sample.1) := by
      have hloud :
          ∀ sample ∈ frame.take (fadeLen - 0), |(sample.1 : ℚ)| ≤ loudest (frame.take fadeLen) :=
        fun _ => le_loudest
      have hsmooth := @fadeIn_smooth _ _ _ _ hinv.range 0 (steepest_chain frame) hloud
      apply hsmooth.imp
      intro a b h
      apply h.trans
      apply le_trans _ (bound_le last frame).2
      have hle : |(ear.lane.tail : ℚ)| ≤ |(last : ℚ)| := by
        rw [htail]
        exact_mod_cast abs_faded_le last samples
      have hshare : (|(ear.lane.tail : ℚ)| + loudest (frame.take fadeLen)) / fadeLen ≤
          (|(last : ℚ)| + loudest (frame.take fadeLen)) / fadeLen :=
        div_le_div_of_nonneg_right (add_le_add_left hle _) (Nat.cast_nonneg _)
      linarith
    have hsmooth : Smooth (bound last frame) (ear.lane.tail ::
        across (ear.lane.feed frame).1
          ((ear.lane.gap frame).drop (ear.lane.thrownBy frame)) later) := by
      apply across_smooth hmost hgain' hqueue' hgap hlater hfadeIn
      · intro sample hin
        rw [hhead sample hin, sub_self, abs_zero]
        exact hmost
      · intro hquiet
        refine ⟨hlast ▸ hnear hquiet, ?_⟩
        intro sample hin
        rw [hhead sample hin]
        exact hlast ▸ hnear hquiet
    apply List.IsChain.append hfadeOut hsmooth.tail
    intro before hbefore next hnext
    rw [hend] at hbefore
    cases hbefore
    rw [← htail]
    exact hsmooth.rel_head? hnext

end Gaps

section Runs
attribute [local irreducible] Lane.feed

/-- So many pulls. -/
def pulls (times : ℕ) : List Moment := List.replicate times .pull

/-- The whole queue is heard. -/
theorem pulls_queue {lane : Lane} {heard : List Heard} {queue : List Sample} {sample : Sample}
    (hqueue : lane.queue = queue ++ [sample]) :
    (pulls lane.queue.length).foldl Ear.on ⟨lane, heard⟩ =
      ⟨{ lane with queue := [], tail := sample.1 },
        .voice sample.1 :: ((queue.map fun sample => Heard.voice sample.1).reverse ++ heard)⟩ := by
  induction queue generalizing lane heard with
  | nil =>
    rw [hqueue]
    simp [pulls, Ear.on, Lane.on, Lane.pull, hqueue]
  | cons first queue ih =>
    have hone : (Ear.on ⟨lane, heard⟩ .pull) =
        ⟨{ lane with queue := queue ++ [sample], tail := first.1 }, .voice first.1 :: heard⟩ := by
      simp [Ear.on, Lane.on, Lane.pull, hqueue]
    have hlen : lane.queue.length = (queue ++ [sample]).length + 1 := by rw [hqueue]; rfl
    have hrest :=
      @ih { lane with queue := queue ++ [sample], tail := first.1 } (.voice first.1 :: heard) rfl
    rw [hlen, pulls, List.replicate_succ, List.foldl_cons, hone]
    rw [pulls] at hrest
    rw [hrest]
    simp

/-- And then its fade out. -/
theorem pulls_dry {lane : Lane} {heard : List Heard} (hqueue : lane.queue = [])
    (hstarved : lane.starved = 0)
    (samples : ℕ) : (pulls samples).foldl Ear.on ⟨lane, heard⟩ =
      ⟨{ lane with starved := samples, tail := faded lane.tail samples },
        fadings lane.tail samples ++ heard⟩ := by
  induction samples with
  | zero =>
    obtain ⟨queue, gain, fresh, starved, skipped, tail, ahead, lateMs⟩ := lane
    cases hstarved
    rfl
  | succ samples ih =>
    rw [pulls] at ih
    rw [pulls, List.replicate_succ', List.foldl_concat, ih]
    simp [Ear.on, Lane.on, Lane.pull, hqueue, fadings, faded_succ, ease]

/-- A frame after the queue ran dry, no pause in between, answers a hole. -/
theorem feed_isSome {lane : Lane} {frame : List Sample} (hfresh : lane.fresh = false)
    (hskipped : lane.skipped = false)
    (hdry : 0 < lane.starved) (hsoon : lane.starved < perMs * pauseMs) :
    (lane.feed frame).2.isSome := by
  have hrun : ¬ (lane.fresh = true ∨ (lane.skipped = true ∧ 0 < lane.starved) ∨
      perMs * pauseMs ≤ lane.starved) := by
    rw [hfresh, hskipped]
    simpa using hsoon
  rw [(feed_rest lane frame).2.2.2.2, Lane.ready]
  dsimp only
  rw [if_neg hrun, if_neg (by simp [hskipped]), if_pos hdry]
  rfl

theorem ready_new : Lane.new.ready.1.queue = List.replicate (perMs * cushionMs) silence := by
  have hstart : (Lane.topUp { Lane.new with fresh := false }).queue =
      List.replicate (perMs * Lane.headStart { Lane.new with fresh := false } - 0) silence := rfl
  have hcushion : Lane.headStart { Lane.new with fresh := false } = cushionMs := by
    simp [Lane.headStart, Lane.new, spareMs, cushionMs, mostCushionMs]
  rw [hcushion, Nat.sub_zero] at hstart
  exact hstart

/-- Twenty milliseconds of a loud voice. -/
def loud : Sample := ⟨4000, by decide, by decide⟩
def word : List Sample := List.replicate 960 loud

/-- It is played, and so much of its fade out. -/
def played (samples : ℕ) : List Moment :=
  .feed word :: (pulls (perMs * cushionMs + 960) ++ pulls samples)

theorem after_played (samples : ℕ) : ∃ lane older,
    Ear.after (played samples) = ⟨lane, fadings 4000 samples ++ .voice 4000 :: older⟩ ∧
      lane.fresh = false ∧
      lane.skipped = false ∧ lane.starved = samples ∧ lane.tail = faded 4000 samples := by
  have hqueue : (Lane.new.feed word).1.queue =
      (List.replicate (perMs * cushionMs) silence ++ List.replicate 959 loud) ++ [loud] := by
    have hqueued : Lane.new.queued word = word := rfl
    have hthrown : Lane.new.thrownBy word = 0 := by
      rw [Lane.thrownBy, ready_new, word, List.length_replicate, List.length_replicate]
      rfl
    rw [feed_queue rfl, ready_new, hqueued, hthrown, List.drop_zero, List.append_assoc, word,
      List.replicate_succ']
  have hlen : (Lane.new.feed word).1.queue.length = perMs * cushionMs + 960 := by
    rw [hqueue, List.length_append, List.length_append, List.length_replicate,
      List.length_replicate]
    rfl
  obtain ⟨-, -, hstarved, hfresh, -⟩ := feed_rest Lane.new word
  have hskipped := feed_skipped Lane.new word
  have hsplit : Ear.after (played samples) =
      (pulls samples).foldl Ear.on
        ((pulls (perMs * cushionMs + 960)).foldl Ear.on ⟨(Lane.new.feed word).1, []⟩) := by
    have hfirst : Ear.new.on (.feed word) = ⟨(Lane.new.feed word).1, []⟩ := rfl
    rw [Ear.after, played, List.foldl_cons, List.foldl_append, hfirst]
  rw [hsplit, ← hlen]
  generalize (Lane.new.feed word).1 = lane at *
  rw [pulls_queue hqueue]
  generalize ((List.replicate (perMs * cushionMs) silence ++ List.replicate 959 loud).map
    fun sample => Heard.voice sample.1).reverse ++ [] = older
  have hdry := @pulls_dry { lane with
    queue := [], tail := loud.1 } (.voice loud.1 :: older) rfl hstarved samples
  rw [hdry]
  exact ⟨{ lane with queue := [], starved := samples, tail := faded 4000 samples }, older, rfl,
    hfresh, hskipped, rfl, rfl⟩

/-- What follows it: once a frame closes the gap, its silence is heard. -/
theorem closing_facts {lane : Lane} (hdry : 0 < lane.starved) :
    Spares lane (lane.gap word) [.feed word, .pull] ∧
    Quiet lane (lane.gap word) [.feed word, .pull] := by
  have hfill := (ready_readied lane).filled (Or.inr hdry)
  have hpos : 0 < lane.ready.1.queue.length := List.length_pos_iff.mpr hfill
  have hword : word.length = 960 := List.length_replicate
  have hcap : perMs * maxQueuedMs = 12000 := rfl
  have hthrown : lane.thrownBy word < lane.ready.1.queue.length := by
    rw [Lane.thrownBy, hword, hcap]
    omega
  constructor
  · refine Or.inr ⟨?_, Or.inr ⟨fun frame h => (by cases h), trivial⟩⟩
    intro frame h
    cases h
    exact hthrown.le
  · have hleft : 0 < lane.ready.1.queue.length - lane.thrownBy word := Nat.sub_pos_of_lt hthrown
    exact hleft

theorem bound_word : bound 4000 word = 127 / 2 := by
  have hsteepest : steepest word = 0 := by decide +kernel
  have hloudest : loudest (word.take fadeLen) = 4000 := by decide +kernel
  have hlen : fadeLen = 144 := rfl
  rw [bound, hsteepest, hloudest, hlen]
  norm_num

end Runs

/-- A frame answers a hole. As long as nothing but silence is thrown away before it has faded in,
every two neighbours from the last sample before the hole to the end of the fade in are within the
bound if and only if either none of the silence is heard, or the fade out had come within the bound
of it. -/
theorem smooth_iff (earlier later : List Moment) (frame : List Sample)
    (hhole : ((Ear.after earlier).lane.feed frame).2.isSome)
    (hspares : Spares (Ear.after earlier).lane ((Ear.after earlier).lane.gap frame)
      (.feed frame :: later)) :
    Smooth (bound (Ear.after earlier).last frame) ((Ear.after earlier).sinceLast ++
        across (Ear.after earlier).lane ((Ear.after earlier).lane.gap frame) (.feed frame :: later))
          ↔
      (Quiet (Ear.after earlier).lane ((Ear.after earlier).lane.gap frame) (.feed frame :: later) →
        |((Ear.after earlier).lane.tail : ℚ)| ≤ bound (Ear.after earlier).last frame) :=
  smooth_iff_near (after_inv earlier) hhole hspares

/-- A gap of six milliseconds. -/
theorem smooth_iff_long :
    Smooth (bound (Ear.after (played 300)).last word) ((Ear.after (played 300)).sinceLast ++
    across (Ear.after (played 300)).lane ((Ear.after (played 300)).lane.gap word) [.feed word,
      .pull]) := by
  obtain ⟨lane, older, hear, hfresh, hskipped, hstarved, htail⟩ := after_played 300
  have hlane : (Ear.after (played 300)).lane = lane := congrArg Ear.lane hear
  have hdry : 0 < (Ear.after (played 300)).lane.starved := by
    rw [hlane, hstarved]
    decide
  have hhole : ((Ear.after (played 300)).lane.feed word).2.isSome := by
    rw [hlane]
    exact feed_isSome hfresh hskipped (hlane ▸ hdry) (hstarved ▸ by decide)
  have hlast : (Ear.after (played 300)).last = 4000 := by
    rw [Ear.last, hear, fadings_find]
    rfl
  apply (smooth_iff (played 300) [.pull] word hhole (closing_facts hdry).1).mpr
  intro _
  have hfaded : |faded 4000 300| ≤ 63 := by decide +kernel
  rw [hlast, bound_word, hlane, htail]
  have : (|faded 4000 300| : ℚ) ≤ 63 := by exact_mod_cast hfaded
  linarith

/-- A gap of one sample ends with a jump from near its height to silence. -/
theorem jumps : ((Ear.after (played 1)).lane.feed word).2.isSome ∧
    ¬ Smooth (bound (Ear.after (played 1)).last word) ((Ear.after (played 1)).sinceLast ++
      across (Ear.after (played 1)).lane ((Ear.after (played 1)).lane.gap word) [.feed word,
        .pull]) := by
  obtain ⟨lane, older, hear, hfresh, hskipped, hstarved, htail⟩ := after_played 1
  have hlane : (Ear.after (played 1)).lane = lane := congrArg Ear.lane hear
  have hdry : 0 < (Ear.after (played 1)).lane.starved := by
    rw [hlane, hstarved]
    decide
  have hhole : ((Ear.after (played 1)).lane.feed word).2.isSome := by
    rw [hlane]
    exact feed_isSome hfresh hskipped (hlane ▸ hdry) (hstarved ▸ by decide)
  have hlast : (Ear.after (played 1)).last = 4000 := by
    rw [Ear.last, hear, fadings_find]
    rfl
  refine ⟨hhole, fun hsmooth => ?_⟩
  obtain ⟨hspares, hquiet⟩ := closing_facts hdry
  have hnear := (smooth_iff_near (after_inv _) hhole hspares).mp hsmooth hquiet
  have hfaded : |faded 4000 1| = 3937 := by decide +kernel
  rw [hlast, bound_word, hlane, htail] at hnear
  have : (|faded 4000 1| : ℚ) = 3937 := by exact_mod_cast hfaded
  linarith

end Linger.VoiceLane
