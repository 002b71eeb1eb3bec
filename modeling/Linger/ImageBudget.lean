import Mathlib.Tactic.Ring
import Mathlib.Tactic.Linarith

/-! What a picture may cost in memory while it is worked on: what is counted before it is decoded,
in 64-bit sums, and the frames of a GIF. -/
namespace Linger.ImageBudget

section Model

def MAX_DECODE_ALLOC : ℕ := 512 * 1024 * 1024
def DISPLAY_EDGE : ℕ := 960

inductive ImageFormat where
  | png | jpeg | gif | webP
  deriving DecidableEq

inductive ColorType where
  | l8 | la8 | rgb8 | rgba8 | l16 | la16 | rgb16 | rgba16 | rgb32F | rgba32F
  deriving DecidableEq

def ColorType.bytesPerPixel : ColorType → ℕ
  | .l8 => 1
  | .la8 => 2
  | .rgb8 => 3
  | .rgba8 => 4
  | .l16 => 2
  | .la16 => 4
  | .rgb16 => 6
  | .rgba16 => 8
  | .rgb32F => 12
  | .rgba32F => 16

inductive Orientation where
  | noTransforms | rotate90 | rotate180 | rotate270
  | flipHorizontal | flipVertical | rotate90FlipH | rotate270FlipH
  deriving DecidableEq

/-- What the JPEG decoder that will do the work reads of the header. -/
structure JpegInfo where
  progressive : Bool
  components : ℕ
  components_lt : components < 256

/-- What is read of a still picture before it is decoded; what can't be read is `none`. -/
structure Header where
  length : ℕ
  format : Option ImageFormat
  width : ℕ
  height : ℕ
  color : ColorType
  orientation : Option Orientation
  jpeg : Option JpegInfo
  length_lt : length < 2 ^ 64
  width_lt : width < 2 ^ 32
  height_lt : height < 2 ^ 32

/-- How sums are made. -/
structure Sums where
  add : ℕ → ℕ → ℕ
  mul : ℕ → ℕ → ℕ
  saturatingMul : ℕ → ℕ → ℕ

/-- In 64 bits, wrapping as a release build does. -/
def u64 : Sums :=
  ⟨fun a b => (a + b) % 2 ^ 64, fun a b => a * b % 2 ^ 64, fun a b => min (a * b) (2 ^ 64 - 1)⟩

def exact : Sums := ⟨fun a b => a + b, fun a b => a * b, fun a b => a * b⟩

/-- Whoever decodes, by the copies that will follow: re-encoding as a JPEG or a PNG, a display copy
alone, or none. -/
inductive Caller where
  | reencodes (jpeg : Bool)
  | displays
  | describes

variable (sums : Sums)

def quarterTurn : Orientation → Bool
  | .rotate90 | .rotate270 | .rotate90FlipH | .rotate270FlipH => true
  | .noTransforms | .rotate180 | .flipHorizontal | .flipVertical => false

def Header.turns (header : Header) : Bool := quarterTurn (header.orientation.getD .noTransforms)

def decoderScratch (header : Header) : Option ℕ :=
  let pixels := sums.mul header.width header.height
  match header.format with
  | some .jpeg => header.jpeg.map fun info =>
    let coefficients :=
      if info.progressive then sums.mul pixels (sums.add (sums.mul 2 info.components) 1) else 0
    sums.add header.length coefficients
  | some .webP => some (sums.add header.length (sums.mul pixels 7))
  | _ => some 0

def conversionBytes (width height : ℕ) (source target : ColorType) : ℕ :=
  if source = target then 0 else sums.mul (sums.mul width height) target.bytesPerPixel

def displayScratch (width height : ℕ) : ℕ :=
  let longest := max width height
  if longest ≤ DISPLAY_EDGE then 0
  else
    let copyHeight := (sums.mul height DISPLAY_EDGE + (longest - 1)) / longest
    sums.mul (sums.mul width copyHeight) 16

def kept (jpeg : Bool) : ColorType := if jpeg then .rgb8 else .rgba8

def Caller.copies (width height : ℕ) (color : ColorType) : Caller → ℕ
  | .reencodes jpeg =>
    sums.add (conversionBytes sums width height color (kept jpeg))
      (displayScratch sums width height)
  | .displays => displayScratch sums width height
  | .describes => 0

def totalBytes (header : Header) : ℕ :=
  sums.saturatingMul (sums.mul header.width header.height) header.color.bytesPerPixel

/-- The file, the decoder's scratch, the turned copy and the caller's copies. -/
def held (header : Header) (caller : Caller) : Option ℕ :=
  let (seenWidth, seenHeight, turned) :=
    if header.turns then (header.height, header.width, totalBytes sums header)
      else (header.width, header.height, 0)
  (decoderScratch sums header).map fun scratch =>
    sums.add (sums.add (sums.add header.length scratch) turned)
      (caller.copies sums seenWidth seenHeight header.color)

/-- When decoding is attempted, with what is counted and the limit the decoder is handed. -/
def decodeWithin (header : Header) (budget : ℕ) (caller : Caller) : Option (ℕ × ℕ) :=
  (held u64 header caller).bind fun held => if budget < held then none
    else some (held, budget - held)

def decodeLimited (header : Header) (caller : Caller) : Option (ℕ × ℕ) :=
  decodeWithin header MAX_DECODE_ALLOC caller

/-- A GIF: its canvas, and its frames' own sizes until one that can't be read. -/
structure Gif where
  length : ℕ
  width : ℕ
  height : ℕ
  frames : List (Option (ℕ × ℕ))
  limits : Bool
  length_lt : length < 2 ^ 64
  width_lt : width < 2 ^ 32
  height_lt : height < 2 ^ 32
  frames_lt : ∀ frame ∈ frames, ∀ size ∈ frame, size.1 < 2 ^ 16 ∧ size.2 < 2 ^ 16

/-- The loop of `gif_frames`, with the pixels it has come to. -/
def countFrames (canvas : ℕ) : ℕ → ℕ → List (Option (ℕ × ℕ)) → Option (ℕ × ℕ)
  | frames, pixels, [] => some (frames, pixels)
  | _, _, none :: _ => none
  | frames, pixels, some (width, height) :: rest =>
    let own := u64.mul width height
    let pixels := u64.add pixels (max (max canvas own) 1)
    if MAX_DECODE_ALLOC / 4 < pixels then none
      else countFrames canvas (u64.add frames 1) pixels rest

def gifFrames (gif : Gif) (canvas : ℕ) : Option (ℕ × ℕ) := countFrames canvas 0 0 gif.frames

/-- When a GIF's frames begin to be decoded, with how many and how many pixels they were counted
at. -/
def reencodeGif (gif : Gif) : Option (ℕ × ℕ) :=
  let canvas := u64.mul gif.width gif.height
  let held := u64.add gif.length (u64.mul canvas 3)
  if MAX_DECODE_ALLOC < held then none
  -- The decoder refuses the limits it is set.
  else if !gif.limits then none
  else gifFrames gif canvas

end Model

section Purpose

/-- The sum is the exact one, and decoding is attempted only where that and all the decoder may
allocate fit. -/
structure StaysWithin (header : Header) (caller : Caller) : Prop where
  sum : ∀ total, held u64 header caller = some total → held exact header caller = some total
  attempts : ∀ counted left, decodeLimited header caller = some (counted, left) →
    ∃ total, held exact header caller = some total ∧
      ∀ allocated ≤ left, total + allocated ≤ MAX_DECODE_ALLOC

/-- What a frame counts for: the bigger of the canvas and itself, and something. -/
def frameCost (gif : Gif) (size : ℕ × ℕ) : ℕ :=
  max (max (gif.width * gif.height) (size.1 * size.2)) 1

/-- The count is of all the frames and exact, it is bounded, and it stands before any frame is
decoded. -/
structure CountsFrames (gif : Gif) : Prop where
  counted : ∀ count total, gifFrames gif (gif.width * gif.height) = some (count, total) ↔
    ∃ sizes : List (ℕ × ℕ), gif.frames = sizes.map some ∧ count = sizes.length ∧
      total = (sizes.map (frameCost gif)).sum ∧ total ≤ MAX_DECODE_ALLOC / 4
  few : ∀ count total, gifFrames gif (gif.width * gif.height) = some (count, total) →
    count ≤ MAX_DECODE_ALLOC / 4
  first : ∀ begun, reencodeGif gif = some begun →
    gifFrames gif (gif.width * gif.height) = some begun

/-- What the decoder holds for each pixel. -/
def Header.scratchPerPixel (header : Header) : Option ℕ :=
  match header.format with
  | some .jpeg => header.jpeg.map fun info =>
    if info.progressive then 2 * info.components + 1 else 0
  | some .webP => some 7
  | _ => some 0

/-- How many of the file there are: the one read, and the decoder's. -/
def Header.files (header : Header) : ℕ :=
  if header.format = some .jpeg ∨ header.format = some .webP then 2 else 1

def Header.turnedPerPixel (header : Header) : ℕ :=
  if header.turns then header.color.bytesPerPixel else 0

def Caller.copiesPerPixel (color : ColorType) : Caller → ℕ
  | .reencodes jpeg => if color = kept jpeg then 0 else (kept jpeg).bytesPerPixel
  | .displays | .describes => 0

/-- Resizing's rows, of the picture as it is seen. -/
def Caller.rows (header : Header) : Caller → ℕ
  | .reencodes _ | .displays =>
    if header.turns then displayScratch exact header.height header.width
    else displayScratch exact header.width header.height
  | .describes => 0

/-- Its pixels, each at all it is held for, and its files and rows come to less than 2^64. -/
def Modest (header : Header) (caller : Caller) : Prop :=
  ∀ scratch ∈ header.scratchPerPixel,
    header.width * header.height *
      (scratch + header.turnedPerPixel + caller.copiesPerPixel header.color) +
      (header.files * header.length + caller.rows header) < 2 ^ 64

end Purpose

section Sums
variable {header : Header} {caller : Caller} {a b : ℕ}

theorem u64_add (h : a + b < 2 ^ 64) : u64.add a b = a + b := Nat.mod_eq_of_lt h

theorem u64_mul (h : a * b < 2 ^ 64) : u64.mul a b = a * b := Nat.mod_eq_of_lt h

theorem u64_saturatingMul (h : a * b < 2 ^ 64) : u64.saturatingMul a b = a * b := by
  have hle : a * b ≤ 2 ^ 64 - 1 := by omega
  exact min_eq_left hle

/-- Two 32-bit sizes multiply in 64 bits. -/
theorem pixels_lt {width height : ℕ} (hwidth : width < 2 ^ 32) (hheight : height < 2 ^ 32) :
    width * height ≤ 2 ^ 64 - 2 ^ 33 + 1 := by
  have hle : width * height ≤ (2 ^ 32 - 1) * (2 ^ 32 - 1) := Nat.mul_le_mul (by omega) (by omega)
  omega

theorem u64_pixels {width height : ℕ} (hwidth : width < 2 ^ 32) (hheight : height < 2 ^ 32) :
    u64.mul width height = width * height := by
  have hpixels := pixels_lt hwidth hheight
  exact u64_mul (by omega)

/-- The copy is no taller than its edge. -/
theorem copyHeight_le {height longest : ℕ} (hle : height ≤ longest) (hpos : 0 < longest) :
    (height * DISPLAY_EDGE + (longest - 1)) / longest ≤ DISPLAY_EDGE := by
  have hscaled : height * DISPLAY_EDGE ≤ longest * DISPLAY_EDGE := Nat.mul_le_mul_right _ hle
  have hnext : height * DISPLAY_EDGE + (longest - 1) < (DISPLAY_EDGE + 1) * longest := by
    rw [Nat.add_one_mul, Nat.mul_comm DISPLAY_EDGE]
    omega
  apply Nat.le_of_lt_succ
  exact (Nat.div_lt_iff_lt_mul hpos).mpr hnext

/-- A copy no taller than its edge has rows few enough to count. -/
theorem displayScratch_exact {width height : ℕ} (hwidth : width < 2 ^ 32)
    (hheight : height < 2 ^ 32) :
    displayScratch u64 width height = displayScratch exact width height := by
  rw [displayScratch, displayScratch]
  by_cases hsmall : max width height ≤ DISPLAY_EDGE
  · rw [if_pos hsmall, if_pos hsmall]
  rw [if_neg hsmall, if_neg hsmall]
  have hedge : height * DISPLAY_EDGE < 2 ^ 64 := by
    rw [DISPLAY_EDGE]
    omega
  have hcopy := copyHeight_le (le_max_right width height) (by omega)
  have hrows := Nat.mul_le_mul hwidth.le hcopy
  have hrowsLt : (2 : ℕ) ^ 32 * DISPLAY_EDGE * 16 < 2 ^ 64 := by decide
  have hwide := u64_mul (lt_of_le_of_lt hrows (by omega))
  have hbytes := u64_mul (lt_of_le_of_lt (Nat.mul_le_mul_right 16 hrows) hrowsLt)
  dsimp only
  rw [u64_mul hedge, hwide, hbytes]
  rfl

theorem decoderScratch_exact :
    decoderScratch exact header = header.scratchPerPixel.map fun scratch =>
      header.width * header.height * scratch + (header.files - 1) * header.length := by
  rw [decoderScratch, Header.scratchPerPixel, Header.files]
  cases hformat : header.format with
  | none => simp
  | some format =>
    cases format with
    | png | gif => simp
    | webP =>
      simp [exact]
      omega
    | jpeg =>
      cases header.jpeg with
      | none => rfl
      | some info =>
        simp [exact]
        omega

/-- What fits in 64 bits is counted as it is. -/
theorem decoderScratch_u64 (hfits : ∀ scratch ∈ decoderScratch exact header, scratch < 2 ^ 64) :
    decoderScratch u64 header = decoderScratch exact header := by
  have hpixels := u64_pixels header.width_lt header.height_lt
  rw [decoderScratch] at hfits ⊢
  rw [decoderScratch, hpixels]
  cases hformat : header.format with
  | none => rfl
  | some format =>
    rw [hformat] at hfits
    cases format with
    | png | gif => rfl
    | webP =>
      have hlt : header.length + header.width * header.height * 7 < 2 ^ 64 := hfits _ rfl
      dsimp only
      rw [u64_mul (by omega), u64_add hlt]
      rfl
    | jpeg =>
      cases hinfo : header.jpeg with
      | none => rfl
      | some info =>
        rw [hinfo] at hfits
        have hcomponents := info.components_lt
        have hchannels : u64.add (u64.mul 2 info.components) 1 = 2 * info.components + 1 := by
          rw [u64_mul (by omega), u64_add (by omega)]
        cases hprogressive : info.progressive with
        | false =>
          have hlength : u64.add header.length 0 = header.length + 0 := u64_add header.length_lt
          simp [hprogressive, hlength, exact]
        | true =>
          have hlt : header.length + header.width * header.height * (2 * info.components + 1) <
              2 ^ 64 := by
            simpa [hprogressive, exact] using hfits
          have hsum : u64.add header.length
              (u64.mul (header.width * header.height) (2 * info.components + 1)) =
              header.length + header.width * header.height * (2 * info.components + 1) := by
            rw [u64_mul (by omega), u64_add hlt]
          simp [hprogressive, hchannels, hsum, exact]

theorem conversionBytes_u64 {width height : ℕ} {source target : ColorType} (hwidth : width < 2 ^ 32)
    (hheight : height < 2 ^ 32)
    (hfits : conversionBytes exact width height source target < 2 ^ 64) :
    conversionBytes u64 width height source target =
      conversionBytes exact width height source target := by
  rw [conversionBytes] at hfits ⊢
  rw [conversionBytes, u64_pixels hwidth hheight]
  by_cases hsame : source = target
  · rw [if_pos hsame, if_pos hsame]
  rw [if_neg hsame] at hfits ⊢
  rw [if_neg hsame]
  exact u64_mul hfits

theorem copies_u64 {width height : ℕ} {color : ColorType} (hwidth : width < 2 ^ 32)
    (hheight : height < 2 ^ 32)
    (hfits : caller.copies exact width height color < 2 ^ 64) :
    caller.copies u64 width height color = caller.copies exact width height color := by
  cases caller with
  | describes => rfl
  | displays => exact displayScratch_exact hwidth hheight
  | reencodes jpeg =>
    have hlt : conversionBytes exact width height color (kept jpeg) +
        displayScratch exact width height < 2 ^ 64 := hfits
    rw [Caller.copies, conversionBytes_u64 hwidth hheight (by omega),
      displayScratch_exact hwidth hheight, u64_add hlt]
    rfl

theorem totalBytes_u64 (hfits : totalBytes exact header < 2 ^ 64) :
    totalBytes u64 header = totalBytes exact header := by
  rw [totalBytes, u64_pixels header.width_lt header.height_lt]
  exact u64_saturatingMul hfits

end Sums

section Frames
variable {canvas : ℕ}

/-- What the loop comes to from any count it is at. -/
theorem countFrames_spec (rest : List (Option (ℕ × ℕ))) (count total : ℕ)
    (hcanvas : canvas ≤ 2 ^ 64 - 2 ^ 33 + 1) :
    ∀ frames pixels,
    frames ≤ pixels → pixels ≤ MAX_DECODE_ALLOC / 4 →
    (∀ frame ∈ rest, ∀ size ∈ frame, size.1 < 2 ^ 16 ∧ size.2 < 2 ^ 16) →
    (countFrames canvas frames pixels rest = some (count, total) ↔
      ∃ sizes : List (ℕ × ℕ), rest = sizes.map some ∧ count = frames + sizes.length ∧
        total = pixels + (sizes.map fun size => max (max canvas (size.1 * size.2)) 1).sum ∧
          total ≤ MAX_DECODE_ALLOC / 4) := by
  have hmost : MAX_DECODE_ALLOC / 4 = 2 ^ 27 := by decide
  induction rest with
  | nil =>
    intro frames pixels _ hpixels _
    rw [countFrames, Option.some.injEq, Prod.mk.injEq]
    constructor
    · rintro ⟨rfl, rfl⟩
      exact ⟨[], rfl, rfl, rfl, hpixels⟩
    · rintro ⟨sizes, hsizes, hcount, htotal, -⟩
      obtain rfl := List.map_eq_nil_iff.mp hsizes.symm
      exact ⟨hcount.symm, htotal.symm⟩
  | cons frame rest ih =>
    intro frames pixels hframes hpixels hlt
    cases frame with
    | none =>
      rw [countFrames]
      refine iff_of_false (by simp) ?_
      rintro ⟨sizes, hsizes, -⟩
      cases sizes with
      | nil => cases hsizes
      | cons size sizes => cases hsizes
    | some size =>
      obtain ⟨hwidth, hheight⟩ := hlt (some size) List.mem_cons_self size rfl
      have hown : size.1 * size.2 < 2 ^ 32 := by
        have hle : size.1 * size.2 ≤ (2 ^ 16 - 1) * (2 ^ 16 - 1) :=
          Nat.mul_le_mul (by omega) (by omega)
        omega
      obtain ⟨cost, hcost⟩ : ∃ cost, cost = max (max canvas (size.1 * size.2)) 1 := ⟨_, rfl⟩
      have hcostLt : cost ≤ 2 ^ 64 - 2 ^ 33 + 1 := by omega
      have hcostPos : 1 ≤ cost := by omega
      rw [countFrames, u64_mul (by omega), ← hcost, u64_add (by omega), u64_add (by omega)]
      by_cases hover : MAX_DECODE_ALLOC / 4 < pixels + cost
      · rw [if_pos hover]
        -- What has come to too much stays too much, whatever the frames after it.
        refine iff_of_false (by simp) ?_
        rintro ⟨sizes, hsizes, -, htotal, hmax⟩
        cases sizes with
        | nil => cases hsizes
        | cons first sizes =>
          have hfirst : some size = some first := (List.cons.inj hsizes).1
          obtain rfl := Option.some.inj hfirst
          rw [List.map_cons, List.sum_cons, ← hcost] at htotal
          omega
      rw [if_neg hover]
      have hrest := ih (frames + 1) (pixels + cost) (by omega) (by omega) fun later hlater =>
        hlt later (List.mem_cons_of_mem _ hlater)
      rw [hrest]
      constructor
      · rintro ⟨sizes, rfl, hcount, htotal, hmax⟩
        refine ⟨size :: sizes, rfl, ?_, ?_, hmax⟩
        · rw [List.length_cons]
          omega
        · rw [List.map_cons, List.sum_cons, ← hcost]
          omega
      · rintro ⟨sizes, hsizes, hcount, htotal, hmax⟩
        cases sizes with
        | nil => cases hsizes
        | cons first sizes =>
          have hfirst : some size = some first := (List.cons.inj hsizes).1
          have hlater : rest = sizes.map some := (List.cons.inj hsizes).2
          obtain rfl := Option.some.inj hfirst
          refine ⟨sizes, hlater, ?_, ?_, hmax⟩
          · rw [List.length_cons] at hcount
            omega
          · rw [List.map_cons, List.sum_cons, ← hcost] at htotal
            omega

/-- Every frame counts for something, so there are no more frames than pixels. -/
theorem length_le_sum (gif : Gif) (sizes : List (ℕ × ℕ)) :
    sizes.length ≤ (sizes.map (frameCost gif)).sum := by
  induction sizes with
  | nil => exact le_rfl
  | cons size sizes ih =>
    have hcost : 1 ≤ frameCost gif size := le_max_right _ _
    rw [List.length_cons, List.map_cons, List.sum_cons]
    omega

theorem countsFrames (gif : Gif) : CountsFrames gif := by
  have hcounted : ∀ count total, gifFrames gif (gif.width * gif.height) = some (count, total) ↔
      ∃ sizes : List (ℕ × ℕ), gif.frames = sizes.map some ∧ count = sizes.length ∧
        total = (sizes.map (frameCost gif)).sum ∧ total ≤ MAX_DECODE_ALLOC / 4 := by
    intro count total
    have hspec :=
      countFrames_spec gif.frames count total (pixels_lt gif.width_lt gif.height_lt) 0 0 le_rfl
      (Nat.zero_le _) gif.frames_lt
    simp only [Nat.zero_add] at hspec
    exact hspec
  refine ⟨hcounted, ?_, ?_⟩
  · intro count total hcount
    obtain ⟨sizes, -, rfl, rfl, hmax⟩ := (hcounted count total).mp hcount
    exact (length_le_sum gif sizes).trans hmax
  · intro begun hbegun
    rw [reencodeGif, u64_pixels gif.width_lt gif.height_lt] at hbegun
    split_ifs at hbegun
    exact hbegun

end Frames

section Held
variable {header : Header} {caller : Caller} {total : ℕ}

/-- The caller's copies of the picture as it is seen. -/
def seenCopies (sums : Sums) (header : Header) (caller : Caller) : ℕ :=
  if header.turns then caller.copies sums header.height header.width header.color
  else caller.copies sums header.width header.height header.color

def turnedCopy (sums : Sums) (header : Header) : ℕ :=
  if header.turns then totalBytes sums header else 0

theorem held_eq (sums : Sums) :
    held sums header caller = (decoderScratch sums header).map fun scratch =>
      sums.add (sums.add (sums.add header.length scratch) (turnedCopy sums header))
        (seenCopies sums header caller) := by
  rw [held, turnedCopy, seenCopies]
  cases header.turns <;> rfl

theorem turnedCopy_exact :
    turnedCopy exact header = header.width * header.height * header.turnedPerPixel := by
  rw [turnedCopy, Header.turnedPerPixel]
  cases header.turns <;> rfl

theorem seenCopies_exact :
    seenCopies exact header caller =
      header.width * header.height * caller.copiesPerPixel header.color + caller.rows header := by
  have hswap := Nat.mul_comm header.height header.width
  rw [seenCopies]
  cases caller with
  | describes => simp [Caller.copies, Caller.copiesPerPixel, Caller.rows]
  | displays => simp [Caller.copies, Caller.copiesPerPixel, Caller.rows]
  | reencodes jpeg =>
    by_cases hsame : header.color = kept jpeg
    · simp [Caller.copies, Caller.copiesPerPixel, Caller.rows, conversionBytes, exact, hsame]
    · have hturns : header.turns = true ∨ header.turns = false := Bool.eq_false_or_eq_true _
      rcases hturns with hturns | hturns
      · simp [Caller.copies, Caller.copiesPerPixel, Caller.rows, conversionBytes, exact, hsame,
          hturns, hswap]
      · simp [Caller.copies, Caller.copiesPerPixel, Caller.rows, conversionBytes, exact, hsame,
          hturns]

theorem files_pos : 1 ≤ header.files := by
  rw [Header.files]
  split_ifs
  · exact one_le_two
  · exact le_rfl

/-- The exact sum, pixel by pixel. -/
theorem exact_held :
    held exact header caller = header.scratchPerPixel.map fun scratch =>
      header.width * header.height *
        (scratch + header.turnedPerPixel + caller.copiesPerPixel header.color) +
        (header.files * header.length + caller.rows header) := by
  rw [held_eq, decoderScratch_exact, turnedCopy_exact, seenCopies_exact, Option.map_map]
  congr 1
  funext scratch
  obtain ⟨more, hmore⟩ := Nat.exists_eq_add_of_le (files_pos : 1 ≤ header.files)
  rw [hmore, Nat.add_sub_cancel_left]
  change header.length + _ + _ + (_ + _) = _
  ring

/-- A sum whose every part fits is the one counted. -/
theorem held_u64 (hfits : ∀ total ∈ held exact header caller, total < 2 ^ 64) :
    held u64 header caller = held exact header caller := by
  rw [held_eq] at hfits ⊢
  rw [held_eq]
  cases hscratch : decoderScratch exact header with
  | none =>
    rw [decoderScratch_u64 (by simp [hscratch]), hscratch]
    rfl
  | some scratch =>
    rw [hscratch] at hfits
    have hlt : header.length + scratch + turnedCopy exact header + seenCopies exact header caller <
        2 ^ 64 :=
      hfits _ rfl
    have hscratchLt : ∀ scratch ∈ decoderScratch exact header, scratch < 2 ^ 64 := by
      intro other hother
      obtain rfl := Option.some.inj (hscratch.symm.trans hother)
      omega
    have hturned : turnedCopy u64 header = turnedCopy exact header := by
      rw [turnedCopy, turnedCopy] at *
      split_ifs at hlt ⊢
      · exact totalBytes_u64 (by omega)
      · rfl
    have hcopies : seenCopies u64 header caller = seenCopies exact header caller := by
      rw [seenCopies, seenCopies] at *
      split_ifs at hlt ⊢
      · exact copies_u64 header.height_lt header.width_lt (by omega)
      · exact copies_u64 header.width_lt header.height_lt (by omega)
    have hread : u64.add header.length scratch = header.length + scratch := u64_add (by omega)
    have hdecoded : u64.add (header.length + scratch) (turnedCopy exact header) =
        header.length + scratch + turnedCopy exact header := u64_add (by omega)
    rw [decoderScratch_u64 hscratchLt, hscratch, hturned, hcopies, Option.map_some, hread, hdecoded,
      u64_add hlt]
    rfl

/-- However it wraps, what is counted is 64 bits. -/
theorem held_lt (hheld : held u64 header caller = some total) : total < 2 ^ 64 := by
  rw [held_eq, Option.map_eq_some_iff] at hheld
  obtain ⟨scratch, -, rfl⟩ := hheld
  exact Nat.mod_lt _ (by norm_num)

/-- A header whose sum can be made in one way can be made in the other. -/
theorem held_isSome : (held u64 header caller).isSome = (held exact header caller).isSome := by
  rw [held_eq, held_eq, Option.isSome_map, Option.isSome_map, decoderScratch, decoderScratch]
  cases header.format with
  | none => rfl
  | some format => cases format <;> simp

theorem staysWithin_iff : StaysWithin header caller ↔ Modest header caller := by
  have hmodest : Modest header caller ↔ ∀ total ∈ held exact header caller, total < 2 ^ 64 := by
    rw [exact_held, Modest]
    simp
  rw [hmodest]
  constructor
  · intro hstays total hexact
    have hsome : (held u64 header caller).isSome := by
      rw [held_isSome, hexact]
      rfl
    obtain ⟨counted, hcounted⟩ := Option.isSome_iff_exists.mp hsome
    obtain rfl := Option.some.inj ((hstays.sum counted hcounted).symm.trans hexact)
    exact held_lt hcounted
  · intro hfits
    have hsame := held_u64 hfits
    refine ⟨fun total hheld => hsame ▸ hheld, ?_⟩
    intro counted left hattempt
    rw [decodeLimited, decodeWithin, hsame] at hattempt
    obtain ⟨total, hexact, hleft⟩ := Option.bind_eq_some_iff.mp hattempt
    refine ⟨total, hexact, ?_⟩
    intro allocated hallocated
    split_ifs at hleft with hbudget
    obtain ⟨-, rfl⟩ := (Prod.mk.injEq ..).mp (Option.some.inj hleft)
    omega

end Held

/-- A header's sum and what is attempted of it are right exactly where the sum, made pixel by pixel,
fits in 64 bits; a GIF's frames are always counted right, and before any of them is decoded. -/
theorem image_memory_iff (header : Header) (caller : Caller) (gif : Gif) :
    (StaysWithin header caller ∧ CountsFrames gif) ↔ Modest header caller := by
  rw [and_iff_left (countsFrames gif)]
  exact staysWithin_iff

/-- A picture on its side, as tall and as wide as a PNG may nearly be. -/
def sideways : Header :=
  ⟨100, some .png, 1317623118, 2000000018, .rgb8, some .rotate90,
    none, by norm_num, by norm_num, by norm_num⟩

/-- It comes to more than 2^64 bytes, and is counted at a few hundred million and decoded. -/
theorem sideways_is_attempted : ¬StaysWithin sideways (.reencodes false) := by
  intro hstays
  have hcounted : held u64 sideways (.reencodes false) = some 311143656 := by decide
  have hexact := hstays.sum 311143656 hcounted
  revert hexact
  decide

end Linger.ImageBudget
