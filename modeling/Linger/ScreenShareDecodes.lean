import Linger.ScreenShare

/-! What of a format came out since the last key frame sent, and what the page's encoders have to do
with it: after one is closed, the next starts with a key frame. -/
namespace Linger.ScreenShare
open StepMachine

section Log
variable {codec : Codec} {socket : ℕ} {log closings : List Out}

theorem sinceKey_none (h : ∀ out ∈ log, out.fate ≠ .sent socket) :
    sinceKey codec socket log = none := by
  induction log with
  | nil => rfl
  | cons out log ih =>
    have hrest := ih fun before hin => h before (List.mem_cons_of_mem _ hin)
    have hout := h out List.mem_cons_self
    simp [sinceKey, hout, hrest]

/-- Closed encoders leave what was inside them out. -/
theorem sinceKey_closings (hclosed : ∀ out ∈ closings, out.fate = .closed) :
    sinceKey codec socket (closings ++ log) =
      (sinceKey codec socket log).map (closings.filter (fun out => out.codec = codec) ++ ·) := by
  induction closings with
  | nil => cases h : sinceKey codec socket log <;> simp [h]
  | cons out closings ih =>
    have hrest := ih fun before hin => hclosed before (List.mem_cons_of_mem _ hin)
    have hout := hclosed out List.mem_cons_self
    rw [List.cons_append, sinceKey, hrest]
    by_cases hcodec : out.codec = codec
    · simp [hcodec, hout, Function.comp_def]
    · simp [hcodec]

theorem follows_of_not_sent {out : Out} (h : ∀ socket, out.fate ≠ .sent socket) : Follows out log :=
  fun socket hsent => absurd hsent (h socket)

theorem decodable_closings (hclosed : ∀ out ∈ closings, out.fate = .closed) :
    Decodable (closings ++ log) ↔ Decodable log := by
  induction closings with
  | nil => rfl
  | cons out closings ih =>
    have hrest := ih fun before hin => hclosed before (List.mem_cons_of_mem _ hin)
    have hout := hclosed out List.mem_cons_self
    have hfollows : Follows out (closings ++ log) :=
      follows_of_not_sent fun socket => by simp [hout]
    rw [List.cons_append, Decodable, hrest]
    exact and_iff_right hfollows

/-- Where a frame may only be missing for one cause, it may be sent just when none was left out for
it. -/
theorem follows_iff {cause : Fate} (hcause : cause ≠ .sent socket)
    (h : ∀ between, sinceKey codec socket log = some between →
      ∀ before ∈ between, before.fate = .sent socket ∨ ∃ left ∈ between, left.fate = cause) :
    Follows ⟨codec, false, .sent socket⟩ log ↔ leftOut cause codec socket log = false := by
  unfold leftOut
  constructor
  · intro hfollows
    cases hsince : sinceKey codec socket log with
    | none => rfl
    | some between =>
      have hall := hfollows socket rfl rfl between hsince
      rw [Option.any_some, List.any_eq_false]
      intro before hin
      rw [hall before hin]
      simpa using hcause.symm
  · intro hnone socket' hsent _ between hsince before hin
    cases hsent
    rw [show sinceKey codec socket log = some between from hsince, Option.any_some,
      List.any_eq_false] at hnone
    obtain hsent | ⟨left, hleft, hfate⟩ := h between hsince before hin
    · exact hsent
    · exact absurd (by simpa using hfate) (hnone left hleft)

end Log

/-- What is sent stays as it is, and nothing comes out: encoders may be closed with frames
inside. -/
structure Calm (share next : Sharing) : Prop where
  source : next.source = share.source
  made : next.made = share.made
  waits : next.shellWaitsForKey = share.shellWaitsForKey
  socket : next.socket = share.socket ∨ next.socket = none
  log : ∃ closings, next.log = closings ++ share.log ∧ ∀ out ∈ closings, out.fate = .closed

theorem Calm.refl (share : Sharing) : Calm share share :=
  ⟨rfl, rfl, rfl, Or.inl rfl, [], rfl, fun _ hin => absurd hin List.not_mem_nil⟩

theorem Calm.trans {share next last : Sharing} (h : Calm share next) (h' : Calm next last) :
    Calm share last := by
  obtain ⟨closings, hlog, hclosed⟩ := h.log
  obtain ⟨closings', hlog', hclosed'⟩ := h'.log
  refine ⟨h'.source.trans h.source, h'.made.trans h.made, h'.waits.trans h.waits, ?_,
    closings' ++ closings, ?_, ?_⟩
  · rcases h'.socket with hsame | hnone
    · rw [hsame]
      exact h.socket
    · exact Or.inr hnone
  · rw [hlog', hlog, List.append_assoc]
  · intro out hin
    exact (List.mem_append.mp hin).elim (hclosed' out) (hclosed out)

section Calm
variable (share : Sharing) (codec : Codec)

theorem setEncoder_calm (held : Option Encoder) : Calm share (share.setEncoder codec held) :=
  ⟨rfl, rfl, rfl, Or.inl rfl, [], rfl, fun _ hin => absurd hin List.not_mem_nil⟩

theorem closeEncoder_calm : Calm share (share.closeEncoder codec) := by
  unfold Sharing.closeEncoder
  split
  · exact Calm.refl share
  · refine ⟨rfl, rfl, rfl, Or.inl rfl, _, rfl, ?_⟩
    intro out hin
    obtain ⟨asked, -, rfl⟩ := List.mem_map.mp (List.mem_reverse.mp hin)
    rfl

theorem finish_calm : Calm share share.finish := by
  have hboth :=
    (closeEncoder_calm share .vp8).trans (closeEncoder_calm (share.closeEncoder .vp8) .avc1)
  exact ⟨hboth.source, hboth.made, hboth.waits, Or.inr rfl, hboth.log⟩

theorem failed_calm (now : ℕ) : Calm share (share.failed codec now) := by
  have hclose := closeEncoder_calm share codec
  have hsame : ∀ {next : Sharing} (fails : Codec → List ℕ) (codecs : List Codec), Calm share next →
      Calm share { next with fails := fails, codecs := codecs } :=
    fun _ _ h => ⟨h.source, h.made, h.waits, h.socket, h.log⟩
  unfold Sharing.failed
  dsimp only
  split
  · exact hsame _ _ hclose
  · split
    · exact (hsame _ _ hclose).trans (finish_calm _)
    · exact ⟨hclose.source, hclose.made, hclose.waits, Or.inr rfl, hclose.log⟩

theorem encodeOn_calm (held : Encoder) (forceKey : Bool) (env : Env) :
    Calm share (share.encodeOn codec held forceKey env) := by
  have hset := setEncoder_calm share codec (some held)
  unfold Sharing.encodeOn
  dsimp only
  split
  · exact hset
  · split
    · exact hset.trans (setEncoder_calm _ codec _)
    · exact hset.trans (failed_calm _ codec _)

theorem encode_calm (size : ℕ × ℕ) (forceKey : Bool) (env : Env) :
    Calm share (share.encode codec size forceKey env) := by
  have hclose := closeEncoder_calm share codec
  unfold Sharing.encode
  split
  · exact Calm.refl share
  · split
    · exact Calm.refl share
    · split
      · exact encodeOn_calm share codec _ forceKey env
      · dsimp only
        split
        · exact hclose.trans (encodeOn_calm _ codec _ forceKey env)
        · exact hclose.trans (failed_calm _ codec _)

theorem encodeAll_calm (codecs : List Codec) (size : ℕ × ℕ) (forceKey : Bool) (env : ℕ → Env) :
    Calm share (share.encodeAll codecs size forceKey env) := by
  unfold Sharing.encodeAll
  generalize codecs.zipIdx = each
  induction each generalizing share with
  | nil => exact Calm.refl share
  | cons codec each ih => exact (encode_calm share codec.1 size forceKey (env codec.2)).trans (ih _)

theorem want_calm (wanted : List Codec) (env : ℕ → Env) : Calm share (share.want wanted env) := by
  have hclose : ∀ (share : Sharing) (codec : Codec),
      Calm share (if codec ∈ wanted then share else share.closeEncoder codec) := by
    intro share codec
    split
    · exact Calm.refl share
    · exact closeEncoder_calm share codec
  have hboth := (hclose share .vp8).trans (hclose _ .avc1)
  have hwanted : ∀ {next : Sharing}, Calm share next → Calm share { next with wanted := wanted } :=
    fun h => ⟨h.source, h.made, h.waits, h.socket, h.log⟩
  unfold Sharing.want
  dsimp only
  split
  · exact (hwanted hboth).trans (encodeAll_calm _ wanted _ true env)
  · exact hwanted hboth

theorem keyframe_calm (env : Env) : Calm share (share.keyframe codec env) := by
  unfold Sharing.keyframe
  split
  · exact Calm.refl share
  · dsimp only
    split
    · split
      · exact (setEncoder_calm share codec _).trans (encode_calm _ codec _ true env)
      · exact setEncoder_calm share codec _
    · exact setEncoder_calm share codec _

theorem frame_calm (size : ℕ × ℕ) (env : ℕ → Env) : Calm share (share.frame size env) := by
  have hlatest : Calm share { share with latest := some size } :=
    ⟨rfl, rfl, rfl, Or.inl rfl, [], rfl, fun _ hin => absurd hin List.not_mem_nil⟩
  exact hlatest.trans (encodeAll_calm _ share.wanted size false env)

end Calm

/-- The next frame that comes out of the encoder is a key frame. -/
def Starts : Option Encoder → Prop
  | none => True
  | some held =>
    match held.inside with
    | [] => held.wantKey = true
    | asked :: _ => asked = true

/-- What the page has of a format since the last key frame sent: a frame is missing for its size, or
the encoder was closed, and then the next starts with a key frame. -/
structure Sound (wanted : List Codec) (held : Option Encoder) (codec : Codec) (socket : ℕ)
  (between : List Out) :
    Prop where
  fates : ∀ out ∈ between, out.fate = .sent socket ∨ out.fate = .tooBig ∨ out.fate = .closed
  wanted : held = none ∨ codec ∈ wanted
  starts : (∃ out ∈ between, out.fate = .closed) → (∃ out ∈ between, out.fate = .tooBig) ∨
    Starts held

def Track (share : Sharing) : Prop :=
  ∀ socket, share.socket = some ⟨socket, .opened⟩ → ∀ codec between,
    sinceKey codec socket share.log = some between →
      Sound share.wanted (share.encoders codec) codec socket between

section Track
variable {share : Sharing} {codec : Codec}

theorem track_of_shut (h : ∀ socket, share.socket ≠ some ⟨socket, .opened⟩) : Track share :=
  fun socket hopen => absurd hopen (h socket)

theorem track_of_none (h : share.socket = none) : Track share :=
  track_of_shut fun socket => by simp [h]

theorem Track.closeEncoder (h : Track share) (codec : Codec) :
    Track (share.closeEncoder codec) := by
  unfold Sharing.closeEncoder
  split
  · exact h
  · next held hheld =>
    intro socket hopen other between hbetween
    have hclosed : ∀ out ∈ (held.inside.map fun asked => (⟨codec, asked, .closed⟩ : Out)).reverse,
        out.fate = .closed := by
      intro out hin
      obtain ⟨asked, -, rfl⟩ := List.mem_map.mp (List.mem_reverse.mp hin)
      rfl
    dsimp only at hbetween ⊢
    rw [sinceKey_closings hclosed] at hbetween
    obtain ⟨since, hsince, rfl⟩ := Option.map_eq_some_iff.mp hbetween
    have hsound := h socket hopen other since hsince
    by_cases hother : other = codec
    · subst hother
      have hnone : (share.setEncoder other none).encoders other = none := Function.update_self _ _ _
      rw [hnone]
      refine ⟨?_, Or.inl rfl, fun _ => Or.inr trivial⟩
      intro out hin
      rcases List.mem_append.mp hin with hin | hin
      · exact Or.inr (Or.inr (hclosed out (List.mem_of_mem_filter hin)))
      · exact hsound.fates out hin
    · have hkeep : (share.setEncoder codec none).encoders other = share.encoders other :=
        Function.update_of_ne hother _ _
      have hempty : (held.inside.map fun asked => (⟨codec, asked, .closed⟩ : Out)).reverse.filter
          (fun out => out.codec = other) = [] := by
        rw [List.filter_eq_nil_iff]
        intro out hin
        obtain ⟨asked, -, rfl⟩ := List.mem_map.mp (List.mem_reverse.mp hin)
        simpa using fun heq => hother heq.symm
      rw [hkeep, hempty, List.nil_append]
      exact hsound

theorem Track.setEncoder (h : Track share) {held : Option Encoder}
    (hstarts : Starts (share.encoders codec) → Starts held)
    (hwanted : share.encoders codec = none → held = none ∨ codec ∈ share.wanted) :
    Track (share.setEncoder codec held) := by
  intro socket hopen other between hbetween
  have hsound := h socket hopen other between hbetween
  by_cases hother : other = codec
  · subst hother
    have hset : (share.setEncoder other held).encoders other = held := Function.update_self _ _ _
    rw [hset]
    exact ⟨hsound.fates, hsound.wanted.elim hwanted Or.inr,
      fun hclosed => (hsound.starts hclosed).imp id hstarts⟩
  · have hkeep : (share.setEncoder codec held).encoders other = share.encoders other :=
      Function.update_of_ne hother _ _
    rw [hkeep]
    exact hsound

theorem failed_track (h : Track share) (codec : Codec) (now : ℕ) :
    Track (share.failed codec now) := by
  have hclose := h.closeEncoder codec
  unfold Sharing.failed
  dsimp only
  split
  · exact hclose
  · split
    · exact track_of_none rfl
    · exact track_of_none rfl

theorem failed_wanted (share : Sharing) (codec : Codec) (now : ℕ) :
    (share.failed codec now).socket = none ∨ (share.failed codec now).wanted = share.wanted := by
  have hclose : ∀ codec, (share.closeEncoder codec).wanted = share.wanted := by
    intro codec
    unfold Sharing.closeEncoder
    split <;> rfl
  unfold Sharing.failed
  dsimp only
  split
  · exact Or.inr (hclose codec)
  · split
    · exact Or.inl rfl
    · exact Or.inl rfl

theorem encodeOn_track (h : Track share) (hwanted : codec ∈ share.wanted) {held : Encoder}
    (hstarts : Starts (share.encoders codec) → Starts (some held)) (forceKey : Bool) (env : Env) :
    Track (share.encodeOn codec held forceKey env) := by
  have hset := h.setEncoder hstarts (fun _ => Or.inr hwanted)
  unfold Sharing.encodeOn
  dsimp only
  split
  · exact hset
  · split
    · apply hset.setEncoder _ (fun _ => Or.inr hwanted)
      have hheld : (share.setEncoder codec (some held)).encoders codec = some held :=
        Function.update_self _ _ _
      rw [hheld]
      -- A frame joins the queue inside; the first of an empty one is a key frame when one was
      -- wanted.
      intro hfirst
      cases hinside : held.inside with
      | nil =>
        simp only [Starts, hinside] at hfirst
        simp [Starts, hfirst]
      | cons asked inside =>
        simp only [Starts, hinside] at hfirst
        simp [Starts, hfirst]
    · exact failed_track hset codec _

theorem encodeOn_wanted (share : Sharing) (codec : Codec) (held : Encoder) (forceKey : Bool)
    (env : Env) :
    (share.encodeOn codec held forceKey env).socket = none ∨
      (share.encodeOn codec held forceKey env).wanted = share.wanted := by
  unfold Sharing.encodeOn
  dsimp only
  split
  · exact Or.inr rfl
  · split
    · exact Or.inr rfl
    · exact failed_wanted (share.setEncoder codec (some held)) codec _

theorem closeEncoder_facts (share : Sharing) (codec : Codec) :
    (share.closeEncoder codec).wanted = share.wanted ∧
    (share.closeEncoder codec).encoders = Function.update share.encoders codec none := by
  unfold Sharing.closeEncoder
  split
  · next hnone => exact ⟨rfl, by rw [← hnone, Function.update_eq_self]⟩
  · exact ⟨rfl, rfl⟩

theorem encode_wanted (share : Sharing) (codec : Codec) (size : ℕ × ℕ) (forceKey : Bool)
    (env : Env) :
    (share.encode codec size forceKey env).socket = none ∨
      (share.encode codec size forceKey env).wanted = share.wanted := by
  have hclose := (closeEncoder_facts share codec).1
  unfold Sharing.encode
  split
  · exact Or.inr rfl
  · split
    · exact Or.inr rfl
    · split
      · exact encodeOn_wanted share codec _ forceKey env
      · dsimp only
        split
        · rw [← hclose]
          exact encodeOn_wanted _ codec _ forceKey env
        · rw [← hclose]
          exact failed_wanted _ codec _

theorem encode_track (h : Track share) (hwanted : share.isOpen = true → codec ∈ share.wanted)
    (size : ℕ × ℕ)
    (forceKey : Bool) (env : Env) : Track (share.encode codec size forceKey env) := by
  have hsame := (closeEncoder_facts share codec).1
  have hnew : Starts (some (⟨size, none, true, []⟩ : Encoder)) := rfl
  unfold Sharing.encode
  split
  · exact h
  · next hopen =>
    have hin : codec ∈ share.wanted := hwanted (by simpa using hopen)
    split
    · exact h
    · split
      · next held hheld =>
        have hheld' : share.encoders codec = some held := (Option.filter_eq_some_iff.mp hheld).1
        exact encodeOn_track h hin (by rw [hheld']; exact id) forceKey env
      · dsimp only
        split
        · exact encodeOn_track (h.closeEncoder codec) (by rw [hsame]; exact hin)
            (fun _ => hnew) forceKey env
        · exact failed_track (h.closeEncoder codec) codec _

theorem encodeAll_track (h : Track share) {codecs : List Codec}
    (hwanted : share.isOpen = true → ∀ codec ∈ codecs, codec ∈ share.wanted) (size : ℕ × ℕ)
    (forceKey : Bool)
    (env : ℕ → Env) : Track (share.encodeAll codecs size forceKey env) := by
  unfold Sharing.encodeAll
  have hall : share.isOpen = true → ∀ codec ∈ codecs.zipIdx, codec.1 ∈ share.wanted :=
    fun hopen codec hin => hwanted hopen codec.1 (List.fst_mem_of_mem_zipIdx hin)
  clear hwanted
  generalize codecs.zipIdx = each at hall
  induction each generalizing share with
  | nil => exact h
  | cons codec each ih =>
    have hfirst :=
      encode_track h (fun hopen => hall hopen codec List.mem_cons_self) size forceKey (env codec.2)
    apply ih hfirst
    intro hopen other hin
    have hcalm := encode_calm share codec.1 size forceKey (env codec.2)
    obtain hnone | hsame := encode_wanted share codec.1 size forceKey (env codec.2)
    · rw [Sharing.isOpen, hnone] at hopen
      cases hopen
    · rw [hsame]
      apply hall _ other (List.mem_cons_of_mem _ hin)
      rcases hcalm.socket with hsocket | hnone
      · rwa [Sharing.isOpen, hsocket] at hopen
      · rw [Sharing.isOpen, hnone] at hopen
        cases hopen

theorem want_track (h : Track share) (wanted : List Codec) (env : ℕ → Env) :
    Track (share.want wanted env) := by
  -- The encoders nobody wants are closed, so each that is left is one of the formats wanted now.
  have hclose : ∀ {share : Sharing} (codec : Codec), Track share →
      Track (if codec ∈ wanted then share else share.closeEncoder codec) := by
    intro share codec h
    split
    · exact h
    · exact h.closeEncoder codec
  have hgone : ∀ (share : Sharing) (codec other : Codec), share.encoders other = none →
      (if codec ∈ wanted then share else share.closeEncoder codec).encoders other = none := by
    intro share codec other hnone
    split
    · exact hnone
    · rw [(closeEncoder_facts share codec).2]
      by_cases hother : other = codec
      · rw [hother, Function.update_self]
      · rw [Function.update_of_ne hother, hnone]
  have hshut : ∀ (share : Sharing) (codec : Codec), codec ∉ wanted →
      (if codec ∈ wanted then share else share.closeEncoder codec).encoders codec = none := by
    intro share codec hnot
    rw [if_neg hnot, (closeEncoder_facts share codec).2, Function.update_self]
  have hleft : ∀ codec, codec ∉ wanted → (if Codec.avc1 ∈ wanted then
      (if Codec.vp8 ∈ wanted then share else share.closeEncoder .vp8) else
        (if Codec.vp8 ∈ wanted then share else share.closeEncoder .vp8).closeEncoder .avc1).encoders
          codec = none := by
    intro codec hnot
    cases codec with
    | vp8 => exact hgone _ .avc1 .vp8 (hshut share .vp8 hnot)
    | avc1 => exact hshut _ .avc1 hnot
  have htrack := hclose .avc1 (hclose .vp8 h)
  have hwanted : Track { (if Codec.avc1 ∈ wanted then
      (if Codec.vp8 ∈ wanted then share else share.closeEncoder .vp8) else
        (if Codec.vp8 ∈ wanted then share else share.closeEncoder .vp8).closeEncoder .avc1) with
          wanted := wanted } := by
    intro socket hopen codec between hbetween
    have hsound := htrack socket hopen codec between hbetween
    refine ⟨hsound.fates, ?_, hsound.starts⟩
    by_cases hin : codec ∈ wanted
    · exact Or.inr hin
    · exact Or.inl (hleft codec hin)
  unfold Sharing.want
  dsimp only
  split
  · exact encodeAll_track hwanted (fun _ _ hin => hin) _ true env
  · exact hwanted

theorem keyframe_track (h : Track share) (codec : Codec) (env : Env) :
    Track (share.keyframe codec env) := by
  unfold Sharing.keyframe
  split
  · exact h
  · dsimp only
    have hset : Track (share.setEncoder codec
        ((share.encoders codec).map fun held => { held with wantKey := true })) := by
      apply h.setEncoder
      · intro hstarts
        cases hheld : share.encoders codec with
        | none => trivial
        | some held =>
          rw [hheld] at hstarts
          cases hinside : held.inside with
          | nil => simp [Starts, hinside]
          | cons asked inside => simpa [Starts, hinside] using hstarts
      · intro hnone
        exact Or.inl (by rw [hnone]; rfl)
    split
    · split
      · next hin => exact encode_track hset (fun _ => hin) _ true env
      · exact hset
    · exact hset

theorem frame_track (h : Track share) (size : ℕ × ℕ) (env : ℕ → Env) :
    Track (share.frame size env) :=
  @encodeAll_track { share with
    latest := some size } h share.wanted (fun _ _ hin => hin) size false env

/-- One frame more of a format. -/
theorem Track.comes (h : Track share) {next : Sharing} {key : Bool} {fate : Fate}
    (hlog : next.log = ⟨codec, key, fate⟩ :: share.log) (hsocket : next.socket = share.socket)
    (hsame : next.wanted = share.wanted)
    (hothers : ∀ other, other ≠ codec → next.encoders other = share.encoders other)
    (hwanted : ∀ socket, fate = .sent socket → codec ∈ share.wanted)
    (hnext : ∀ socket between, sinceKey codec socket share.log = some between →
      Sound share.wanted (share.encoders codec) codec socket between →
      ¬ (key = true ∧ fate = .sent socket) →
        share.socket = some ⟨socket, .opened⟩ →
          Sound share.wanted (next.encoders codec) codec socket (⟨codec, key, fate⟩ :: between)) :
            Track next := by
  intro socket hopen other between hbetween
  rw [hsocket] at hopen
  rw [hlog, sinceKey] at hbetween
  rw [hsame]
  by_cases hother : other = codec
  · subst hother
    rw [if_neg (by simp)] at hbetween
    split at hbetween
    · next hkey =>
      cases hbetween
      exact ⟨fun out hin => absurd hin List.not_mem_nil, Or.inr (hwanted socket hkey.2),
        fun ⟨out, hin, _⟩ => absurd hin List.not_mem_nil⟩
    · next hkey =>
      obtain ⟨since, hsince, rfl⟩ := Option.map_eq_some_iff.mp hbetween
      exact hnext socket since hsince (h socket hopen other since hsince) hkey hopen
  · rw [if_pos (by simpa using fun heq => hother heq.symm)] at hbetween
    rw [hothers other hother]
    exact h socket hopen other between hbetween

/-- A frame that comes out: the next one starts as it did, but a key frame that is sent begins anew,
and one that is left out for its size is missing. -/
theorem output_track (h : Track share) {held : Encoder} {asked : Bool} {inside : List Bool}
    (hheld : share.encoders codec = some held) (hinside : held.inside = asked :: inside)
    {key big : Bool}
    (hkey : (asked && !key) = false) :
    Track ((share.setEncoder codec (some { held with inside := inside })).send codec key big) := by
  have hstarts : Starts (share.encoders codec) → asked = true := by
    rw [hheld]
    simp [Starts, hinside]
  have hothers : ∀ (held held' : Option Encoder) other, other ≠ codec → Function.update
      (Function.update share.encoders codec held) codec held' other = share.encoders other := by
    intro held held' other hne
    rw [Function.update_of_ne hne, Function.update_of_ne hne]
  unfold Sharing.send
  split
  · next socket hopen =>
    split
    · next hnot =>
      -- The encoder of a format that is not wanted any more was closed, if a key frame of it was
      -- sent here.
      apply @Track.comes share codec h _ key .unwanted (by rfl) (by rfl) (by rfl)
      · exact fun other hne => Function.update_of_ne hne _ _
      · exact fun socket hsent => by cases hsent
      · intro other between hsince hsound _ _
        rcases hsound.wanted with hnone | hwanted
        · rw [hheld] at hnone
          cases hnone
        · exact absurd hwanted hnot
    · next hwanted =>
      rw [not_not] at hwanted
      split
      · apply @Track.comes share codec h _ key .tooBig (by rfl) (by rfl) (by rfl)
          (by exact hothers _ _) (fun _ _ => hwanted)
        intro other between hsince hsound _ _
        refine ⟨?_, Or.inr hwanted, fun _ => Or.inl ⟨_, List.mem_cons_self, rfl⟩⟩
        intro out hin
        rcases List.mem_cons.mp hin with rfl | hin
        · exact Or.inr (Or.inl rfl)
        · exact hsound.fates out hin
      · apply @Track.comes share codec h _ key (.sent socket) (by rfl) (by rfl) (by rfl) _
          (fun _ _ => hwanted)
        · intro other between hsince hsound hnot hopen'
          have hopen : share.socket = some ⟨socket, .opened⟩ := hopen
          rw [hopen] at hopen'
          cases hopen'
          have hordinary : key = false := by simpa using hnot
          have hasked : asked = false := by simpa [hordinary] using hkey
          refine ⟨?_, Or.inr hwanted, ?_⟩
          · intro out hin
            rcases List.mem_cons.mp hin with rfl | hin
            · exact Or.inl rfl
            · exact hsound.fates out hin
          · rintro ⟨out, hin, hclosed⟩
            rcases List.mem_cons.mp hin with rfl | hin
            · cases hclosed
            · rcases hsound.starts ⟨out, hin, hclosed⟩ with ⟨left, hleft, hbig⟩ | hfirst
              · exact Or.inl ⟨left, List.mem_cons_of_mem _ hleft, hbig⟩
              · rw [hasked] at hstarts
                exact absurd (hstarts hfirst) Bool.false_ne_true
        · exact fun other hne => Function.update_of_ne hne _ _
  · next hshut =>
    apply track_of_shut
    intro socket hopen
    exact hshut socket hopen

end Track

end Linger.ScreenShare
