import Linger.ScreenShareDecodes

/-! What a sharer sends can be decoded in just the runs where no frame that needs the one before it
is passed on after one that was left out for its size, or for not being wanted. -/
namespace Linger.ScreenShare
open StepMachine

/-- What is sent was sent on a socket that has opened, and sockets are told apart. -/
structure Fresh (share : Sharing) : Prop where
  below : ∀ out ∈ share.log, ∀ socket, out.fate = .sent socket → socket < share.made
  socket : ∀ socket, share.socket = some socket → socket.id < share.made
  first : ∀ socket, share.socket = some ⟨socket, .connecting⟩ →
    ∀ out ∈ share.log, out.fate ≠ .sent socket

/-- Of the shell's frames, one that was wanted is missing only while the format waits for a key
frame. -/
structure Shell (share : Sharing) : Prop where
  encoders : ∀ codec, share.encoders codec = none
  waits : ∀ socket, share.socket = some ⟨socket, .opened⟩ → ∀ codec between,
    sinceKey codec socket share.log = some between →
      ∀ out ∈ between, out.fate = .sent socket ∨ out.fate = .unwanted ∨
        share.shellWaitsForKey codec = true

structure Inv (share : Sharing) : Prop where
  fresh : Fresh share
  track : share.source = .track → Track share
  shell : share.source = .shell → Shell share

section Steps
variable {share next : Sharing} {codec : Codec}

theorem Fresh.calm (h : Fresh share) (hcalm : Calm share next) : Fresh next := by
  obtain ⟨closings, hlog, hclosed⟩ := hcalm.log
  have hold : ∀ out ∈ next.log, ∀ socket, out.fate = .sent socket → out ∈ share.log := by
    intro out hin socket hsent
    rw [hlog] at hin
    rcases List.mem_append.mp hin with hin | hin
    · rw [hclosed out hin] at hsent
      cases hsent
    · exact hin
  refine ⟨?_, ?_, ?_⟩
  · intro out hin socket hsent
    rw [hcalm.made]
    exact h.below out (hold out hin socket hsent) socket hsent
  · intro socket hsocket
    rw [hcalm.made]
    rcases hcalm.socket with hsame | hnone
    · exact h.socket socket (hsame ▸ hsocket)
    · rw [hnone] at hsocket
      cases hsocket
  · intro socket hsocket out hin hsent
    rcases hcalm.socket with hsame | hnone
    · exact h.first socket (hsame ▸ hsocket) out (hold out hin socket hsent) hsent
    · rw [hnone] at hsocket
      cases hsocket

/-- A frame of the format is told, sent if anything on the open socket. -/
theorem Fresh.tells (h : Fresh share) {key : Bool} {fate : Fate}
    (hlog : next.log = ⟨codec, key, fate⟩ :: share.log)
    (hsocket : next.socket = share.socket) (hmade : next.made = share.made)
    (hsent : ∀ socket, fate = .sent socket → share.socket = some ⟨socket, .opened⟩) :
    Fresh next := by
  refine ⟨?_, ?_, ?_⟩
  · intro out hin socket hout
    rw [hlog] at hin
    rw [hmade]
    rcases List.mem_cons.mp hin with rfl | hin
    · exact h.socket _ (hsent socket hout)
    · exact h.below out hin socket hout
  · rw [hsocket, hmade]
    exact h.socket
  · intro socket hconnecting out hin hout
    rw [hsocket] at hconnecting
    rw [hlog] at hin
    rcases List.mem_cons.mp hin with rfl | hin
    · rw [hsent socket hout] at hconnecting
      cases hconnecting
    · exact h.first socket hconnecting out hin hout

theorem closeEncoder_none (h : share.encoders codec = none) : share.closeEncoder codec = share := by
  unfold Sharing.closeEncoder
  rw [h]

theorem finish_inv (h : Inv share) : Inv share.finish := by
  refine ⟨h.fresh.calm (finish_calm share), fun _ => track_of_none rfl, fun hshell => ?_⟩
  have hnone := (h.shell ((finish_calm share).source ▸ hshell)).encoders
  refine ⟨?_, fun socket hopen => by cases hopen⟩
  intro codec
  have hsame : share.finish.encoders = share.encoders := by
    unfold Sharing.finish
    rw [closeEncoder_none (hnone .vp8), closeEncoder_none (hnone .avc1)]
  rw [hsame]
  exact hnone codec

/-- A step after which nothing is open keeps what is so of the frames. -/
theorem Inv.shut (h : Inv share) (hfresh : Fresh next) (hsource : next.source = share.source)
    (hencoders : next.encoders = share.encoders) (hlog : next.log = share.log)
    (hshut : ∀ socket codec, next.socket = some ⟨socket, .opened⟩ →
      sinceKey codec socket share.log = none) : Inv next := by
  refine ⟨hfresh, ?_, ?_⟩
  · intro _ socket hopen codec between hbetween
    rw [hlog, hshut socket codec hopen] at hbetween
    cases hbetween
  · intro hshell
    refine ⟨fun codec => by rw [hencoders]; exact (h.shell (hsource ▸ hshell)).encoders codec, ?_⟩
    intro socket hopen codec between hbetween
    rw [hlog, hshut socket codec hopen] at hbetween
    cases hbetween

theorem want_inv (h : Inv share) (wanted : List Codec) (env : ℕ → Env) :
    Inv (share.want wanted env) := by
  have hcalm := want_calm share wanted env
  refine ⟨h.fresh.calm hcalm, fun htrack => want_track (h.track (hcalm.source ▸ htrack)) wanted env,
    fun hshell => ?_⟩
  have hsource : share.source = .shell := hcalm.source ▸ hshell
  have hsh := h.shell hsource
  have hsame : share.want wanted env = { share with wanted := wanted } := by
    unfold Sharing.want
    rw [closeEncoder_none (hsh.encoders .vp8), ite_self]
    dsimp only
    rw [closeEncoder_none (hsh.encoders .avc1), ite_self, hsource]
  rw [hsame]
  exact ⟨hsh.encoders, hsh.waits⟩

theorem keyframe_inv (h : Inv share) (codec : Codec) (env : Env) :
    Inv (share.keyframe codec env) := by
  have hcalm := keyframe_calm share codec env
  refine ⟨h.fresh.calm hcalm,
    fun htrack => keyframe_track (h.track (hcalm.source ▸ htrack)) codec env, fun hshell => ?_⟩
  have hsource : share.source = .shell := hcalm.source ▸ hshell
  have hsame : share.keyframe codec env = share := by
    unfold Sharing.keyframe
    rw [hsource]
  rw [hsame]
  exact h.shell hsource

/-- One frame more of the shell's. -/
theorem Shell.comes (h : Shell share) {key : Bool} {fate : Fate}
    (hlog : next.log = ⟨codec, key, fate⟩ :: share.log)
    (hsocket : next.socket = share.socket) (hencoders : next.encoders = share.encoders)
    (hothers : ∀ other, other ≠ codec → next.shellWaitsForKey other = share.shellWaitsForKey other)
    (hnext : ∀ socket, ¬ (key = true ∧ fate = .sent socket) →
      share.socket = some ⟨socket, .opened⟩ →
      (fate = .sent socket ∧ share.shellWaitsForKey codec = false) ∨
        (fate = .unwanted ∧ next.shellWaitsForKey codec = share.shellWaitsForKey codec) ∨
          next.shellWaitsForKey codec = true) : Shell next := by
  refine ⟨fun codec => by rw [hencoders]; exact h.encoders codec, ?_⟩
  intro socket hopen other between hbetween
  rw [hsocket] at hopen
  rw [hlog, sinceKey] at hbetween
  by_cases hother : other = codec
  · subst hother
    rw [if_neg (by simp)] at hbetween
    split at hbetween
    · cases hbetween
      exact fun out hin => absurd hin List.not_mem_nil
    · next hkey =>
      obtain ⟨since, hsince, rfl⟩ := Option.map_eq_some_iff.mp hbetween
      have hold := h.waits socket hopen other since hsince
      intro out hin
      rcases hnext socket hkey hopen with ⟨hsent, hwaits⟩ | ⟨hunwanted, hsame⟩ | hwaits
      · rcases List.mem_cons.mp hin with rfl | hin
        · exact Or.inl hsent
        · exact (hold out hin).imp id (Or.imp id fun hwait => absurd hwait (by simp [hwaits]))
      · rcases List.mem_cons.mp hin with rfl | hin
        · exact Or.inr (Or.inl hunwanted)
        · rw [hsame]
          exact hold out hin
      · exact Or.inr (Or.inr hwaits)
  · rw [if_pos (by simpa using fun heq => hother heq.symm)] at hbetween
    rw [hothers other hother]
    exact h.waits socket hopen other between hbetween

theorem shellFrame_shell (h : Shell share) (codec : Codec) (key big : Bool) (bufferedAmount : ℕ) :
    Shell (share.shellFrame codec key big bufferedAmount) := by
  have hothers : ∀ (waits : Bool) other, other ≠ codec →
      Function.update share.shellWaitsForKey codec waits other = share.shellWaitsForKey other :=
    fun waits other hne => Function.update_of_ne hne waits share.shellWaitsForKey
  have hset : ∀ waits : Bool, Function.update share.shellWaitsForKey codec waits codec = waits :=
    fun waits => Function.update_self codec waits share.shellWaitsForKey
  unfold Sharing.shellFrame
  split
  · next socket hopen =>
    split
    · apply @Shell.comes share _ codec h key .unwanted (by rfl) (by rfl) (by rfl)
        (by exact fun _ _ => rfl)
      exact fun _ _ _ => Or.inr (Or.inl ⟨rfl, rfl⟩)
    · split
      · next hwait =>
        apply @Shell.comes share _ codec h key .waits (by rfl) (by rfl) (by rfl)
          (by exact fun _ _ => rfl)
        have hwaits : share.shellWaitsForKey codec = true := by
          rw [Bool.and_eq_true] at hwait
          exact hwait.1
        exact fun _ _ _ => Or.inr (Or.inr hwaits)
      · next hgo =>
        split
        · apply @Shell.comes share _ codec h key .tooBig (by rfl) (by rfl) (by rfl)
            (by exact hothers true)
          exact fun _ _ _ => Or.inr (Or.inr (hset true))
        · split
          · apply @Shell.comes share _ codec h key .behind (by rfl) (by rfl) (by rfl)
              (by exact hothers true)
            exact fun _ _ _ => Or.inr (Or.inr (hset true))
          · apply @Shell.comes share _ codec h key (.sent socket) (by rfl) (by rfl) (by rfl)
              (by exact hothers false)
            intro other hordinary hopen'
            rw [hopen] at hopen'
            cases hopen'
            have hkey : key = false := by simpa using hordinary
            exact Or.inl ⟨rfl, by simpa [hkey] using hgo⟩
  · next hshut =>
    apply @Shell.comes share _ codec h key .offline (by rfl) (by rfl) (by rfl)
      (by exact fun _ _ => rfl)
    exact fun socket _ hopen => absurd hopen (hshut socket)

/-- What becomes of a frame that comes out of the page's encoder. -/
theorem send_cases (share : Sharing) (codec : Codec) (key big : Bool) :
    ∃ fate, (share.send codec key big).log = ⟨codec, key, fate⟩ :: share.log ∧
      (share.send codec key big).socket = share.socket ∧
      (share.send codec key big).made = share.made ∧
        (share.send codec key big).source = share.source ∧
          ∀ socket, fate = .sent socket ↔
            share.socket = some ⟨socket, .opened⟩ ∧ codec ∈ share.wanted ∧ big = false := by
  unfold Sharing.send
  split
  · next socket hopen =>
    split
    · next hnot => exact ⟨.unwanted, rfl, rfl, rfl, rfl, fun other => by simp [hnot]⟩
    · next hwanted =>
      rw [not_not] at hwanted
      split
      · next hbig => exact ⟨.tooBig, rfl, rfl, rfl, rfl, fun other => by simp [hbig]⟩
      · next hbig =>
          exact ⟨.sent socket, rfl, rfl, rfl, rfl, fun other => by simp [hbig, hopen, hwanted]⟩
  · next hshut =>
    refine ⟨.offline, rfl, rfl, rfl, rfl, fun other => ⟨fun h => (by cases h), ?_⟩⟩
    exact fun h => absurd h.1 (hshut other)

/-- What becomes of a frame from the shell. -/
theorem shellFrame_cases (share : Sharing) (codec : Codec) (key big : Bool) (bufferedAmount : ℕ) :
    ∃ fate, (share.shellFrame codec key big bufferedAmount).log = ⟨codec, key, fate⟩ :: share.log ∧
      (share.shellFrame codec key big bufferedAmount).socket = share.socket ∧
        (share.shellFrame codec key big bufferedAmount).made = share.made ∧
          (share.shellFrame codec key big bufferedAmount).source = share.source ∧
            ∀ socket, fate = .sent socket ↔
              share.socket = some ⟨socket, .opened⟩ ∧ codec ∈ share.wanted ∧
              (share.shellWaitsForKey codec && !key) = false ∧ big = false ∧
              bufferedAmount ≤ mostWaiting := by
  unfold Sharing.shellFrame
  split
  · next socket hopen =>
    split
    · next hnot => exact ⟨.unwanted, rfl, rfl, rfl, rfl, fun other => by simp [hnot]⟩
    · next hwanted =>
      rw [not_not] at hwanted
      split
      · next hwait =>
        refine ⟨.waits, rfl, rfl, rfl, rfl, fun other => ?_⟩
        rw [hwait]
        simp
      · next hgo =>
        rw [Bool.not_eq_true] at hgo
        split
        · next hbig => exact ⟨.tooBig, rfl, rfl, rfl, rfl, fun other => by simp [hbig]⟩
        · next hbig =>
          split
          · next hbehind =>
            refine ⟨.behind, rfl, rfl, rfl, rfl, fun other => ?_⟩
            have : ¬ bufferedAmount ≤ mostWaiting := by omega
            simp [this]
          · next hbehind =>
            refine ⟨.sent socket, rfl, rfl, rfl, rfl, fun other => ?_⟩
            have : bufferedAmount ≤ mostWaiting := by omega
            simp [hopen, hwanted, hbig, this, hgo]
  · next hshut =>
    refine ⟨.offline, rfl, rfl, rfl, rfl, fun other => ⟨fun h => (by cases h), ?_⟩⟩
    exact fun h => absurd h.1 (hshut other)

/-- A frame that comes out keeps everything decodable just when it is allowed to. -/
theorem comes_decodable {key : Bool} {fate cause : Fate} (hd : Decodable share.log)
    (hlog : next.log = ⟨codec, key, fate⟩ :: share.log) {sends : ℕ → Prop}
    (hfate : ∀ socket, fate = .sent socket ↔ sends socket)
    (hcause : ∀ socket, cause ≠ .sent socket)
    (hmissing : ∀ socket, sends socket → key = false →
      ∀ between, sinceKey codec socket share.log = some between →
      ∀ before ∈ between, before.fate = .sent socket ∨ ∃ left ∈ between, left.fate = cause) :
    Decodable next.log ↔
      ∀ socket, sends socket → key = false → leftOut cause codec socket share.log = false := by
  rw [hlog, Decodable, and_iff_left hd]
  constructor
  · rintro hfollows socket hsends rfl
    rw [(hfate socket).mpr hsends] at hfollows
    exact (follows_iff (hcause socket) (hmissing socket hsends rfl)).mp hfollows
  · intro hnone socket hsent hordinary
    cases hordinary
    have hsends := (hfate socket).mp hsent
    have hfollows :=
      (follows_iff (hcause socket) (hmissing socket hsends rfl)).mpr (hnone socket hsends rfl)
    exact hfollows socket rfl rfl

theorem output_iff (h : Inv share) (htrack : share.source = .track) {held : Encoder}
    {asked : Bool} {inside : List Bool} (hheld : share.encoders codec = some held)
    (hinside : held.inside = asked :: inside) {key big : Bool} (hkey : (asked && !key) = false) :
    Inv ((share.setEncoder codec (some { held with inside := inside })).send codec key big) ∧
      (Decodable share.log →
        (Decodable
          ((share.setEncoder codec (some { held with inside := inside })).send codec key big).log ↔
          Allowed share (.output codec key big))) := by
  obtain ⟨fate, hlog, hsocket, hmade, hsource, hfate⟩ :=
    send_cases (share.setEncoder codec (some { held with inside := inside })) codec key big
  have htracked := h.track htrack
  constructor
  · refine ⟨?_, fun _ => output_track htracked hheld hinside hkey, fun hshell => ?_⟩
    · exact h.fresh.tells hlog hsocket hmade fun socket hsent => ((hfate socket).mp hsent).1
    · rw [hsource] at hshell
      rw [show share.source = .shell from hshell] at htrack
      cases htrack
  · have hmissing :
        ∀ socket, (share.socket = some ⟨socket, .opened⟩ ∧ codec ∈ share.wanted ∧ big = false) →
        key = false → ∀ between, sinceKey codec socket share.log = some between →
          ∀ before ∈ between, before.fate = .sent socket ∨
            ∃ left ∈ between, left.fate = .tooBig := by
      rintro socket ⟨hopen, -, -⟩ rfl between hsince before hin
      have hsound := htracked socket hopen codec between hsince
      rcases hsound.fates before hin with hsent | hbig | hclosed
      · exact Or.inl hsent
      · exact Or.inr ⟨before, hin, hbig⟩
      · rcases hsound.starts ⟨before, hin, hclosed⟩ with hbig | hfirst
        · exact Or.inr hbig
        · -- The next frame would be a key frame.
          rw [hheld] at hfirst
          have hasked : asked = true := by simpa [Starts, hinside] using hfirst
          rw [hasked] at hkey
          cases hkey
    intro hd
    rw [comes_decodable hd hlog hfate (fun _ h => by cases h) hmissing]
    cases key with
    | true => exact ⟨fun _ => trivial, fun _ _ _ h => by cases h⟩
    | false =>
      cases big with
      | true => exact ⟨fun _ => trivial, fun _ _ hsends => by cases hsends.2.2⟩
      | false => exact ⟨fun hall socket hopen hwanted => hall socket ⟨hopen, hwanted, rfl⟩ rfl,
          fun hall socket hsends _ => hall socket hsends.1 hsends.2.1⟩

theorem shellFrame_iff (h : Inv share) (hshell : share.source = .shell) (codec : Codec)
    (key big : Bool) (bufferedAmount : ℕ) : Inv (share.shellFrame codec key big bufferedAmount) ∧
      (Decodable share.log → (Decodable (share.shellFrame codec key big bufferedAmount).log ↔
        Allowed share (.shellFrame codec key big bufferedAmount))) := by
  obtain ⟨fate, hlog, hsocket, hmade, hsource, hfate⟩ :=
    shellFrame_cases share codec key big bufferedAmount
  have hshelled := h.shell hshell
  constructor
  · refine ⟨?_, fun htrack => ?_, fun _ => shellFrame_shell hshelled codec key big bufferedAmount⟩
    · exact h.fresh.tells hlog hsocket hmade fun socket hsent => ((hfate socket).mp hsent).1
    · rw [hsource, hshell] at htrack
      cases htrack
  · have hmissing : ∀ socket, (share.socket = some ⟨socket, .opened⟩ ∧ codec ∈ share.wanted ∧
        (share.shellWaitsForKey codec && !key) = false ∧ big = false ∧
        bufferedAmount ≤ mostWaiting) →
          key = false → ∀ between, sinceKey codec socket share.log = some between →
            ∀ before ∈ between, before.fate = .sent socket ∨
              ∃ left ∈ between, left.fate = .unwanted := by
      rintro socket ⟨hopen, -, hgo, -, -⟩ rfl between hsince before hin
      rcases hshelled.waits socket hopen codec between hsince before hin with
        hsent | hunwanted | hwaits
      · exact Or.inl hsent
      · exact Or.inr ⟨before, hin, hunwanted⟩
      · rw [hwaits] at hgo
        cases hgo
    intro hd
    rw [comes_decodable hd hlog hfate (fun _ h => by cases h) hmissing]
    cases key with
    | true => exact ⟨fun _ => trivial, fun _ _ _ h => by cases h⟩
    | false =>
      cases big with
      | true => exact ⟨fun _ => trivial, fun _ _ hsends => by cases hsends.2.2.2.1⟩
      | false =>
        constructor
        · intro hall socket hopen hwanted hwaits hline
          exact hall socket ⟨hopen, hwanted, by rw [hwaits]; rfl, rfl, hline⟩ rfl
        · intro hall socket hsends _
          exact hall socket hsends.1 hsends.2.1 (by simpa using hsends.2.2.1) hsends.2.2.2.2

theorem Calm.decodable (h : Calm share next) : Decodable next.log ↔ Decodable share.log := by
  obtain ⟨closings, hlog, hclosed⟩ := h.log
  rw [hlog]
  exact decodable_closings hclosed

/-- What a step adds to what came out, and whether that keeps it decodable. -/
structure Adds (share next : Sharing) (event : Event) : Prop where
  inv : Inv next
  log : ∃ outs, next.log = outs ++ share.log
  decodable : Decodable share.log → (Decodable next.log ↔ Allowed share event)

theorem Calm.adds (hcalm : Calm share next) (hinv : Inv next) {event : Event}
    (hallowed : Allowed share event) :
    Adds share next event := by
  obtain ⟨closings, hlog, -⟩ := hcalm.log
  exact ⟨hinv, ⟨closings, hlog⟩, fun hd => ⟨fun _ => hallowed, fun _ => hcalm.decodable.mpr hd⟩⟩

theorem step_adds (h : Inv share) {event : Event} (hs : share.step event = some next) :
    Adds share next event := by
  unfold Sharing.step at hs
  split at hs
  · cases hs
  -- Most events send nothing out: what came out before stays as decodable as it was.
  · have hstay : ∀ {next : Sharing}, Inv next → next.log = share.log → Allowed share event →
        Adds share next event :=
      fun hinv hlog hallowed =>
        ⟨hinv, ⟨[], hlog⟩, fun hd => ⟨fun _ => hallowed, fun _ => hlog ▸ hd⟩⟩
    cases event with
    -- a new socket, under whose number nothing was sent
    | connects =>
      cases hs
      refine hstay
        (h.shut ⟨?_, ?_, ?_⟩ rfl rfl rfl fun socket codec hopen => by cases hopen) rfl trivial
      · exact fun out hin socket hsent => Nat.lt_succ_of_lt (h.fresh.below out hin socket hsent)
      · intro socket hsocket
        cases hsocket
        exact Nat.lt_succ_self _
      · intro socket hsocket out hin hsent
        cases hsocket
        exact Nat.lt_irrefl _ (h.fresh.below out hin _ hsent)
    -- a socket that opens, with nothing sent on it yet
    | opens =>
      dsimp only at hs
      split at hs
      · next socket hconnecting =>
        cases hs
        have hnone := h.fresh.first socket hconnecting
        refine hstay (h.shut ⟨h.fresh.below, ?_, ?_⟩ rfl rfl rfl ?_) rfl trivial
        · intro other hother
          cases hother
          have hbelow := h.fresh.socket _ hconnecting
          exact hbelow
        · exact fun other hother => by cases hother
        · intro other codec hopen
          cases hopen
          exact sinceKey_none hnone
      · cases hs
    | closing =>
      obtain ⟨socket, hsocket, rfl⟩ := Option.map_eq_some_iff.mp hs
      refine hstay (h.shut ⟨h.fresh.below, ?_, ?_⟩ rfl rfl rfl
        fun other codec hopen => by cases hopen) rfl trivial
      · intro other hother
        cases hother
        have hbelow := h.fresh.socket _ hsocket
        exact hbelow
      · exact fun other hother => by cases hother
    -- The socket has closed: the share is over, or goes on without one.
    | closed ends =>
      obtain ⟨socket, hsocket, rfl⟩ := Option.map_eq_some_iff.mp hs
      split
      · exact (finish_calm share).adds (finish_inv h) trivial
      · have hnone : Fresh { share with socket := none } :=
          ⟨h.fresh.below, fun other hother => (by cases hother),
            fun other hother => (by cases hother)⟩
        exact hstay (h.shut hnone rfl rfl rfl fun other codec hopen => by cases hopen) rfl trivial
    | finishes =>
      cases hs
      exact (finish_calm share).adds (finish_inv h) trivial
    | want wanted env =>
      obtain ⟨socket, hsocket, rfl⟩ := Option.map_eq_some_iff.mp hs
      exact (want_calm share wanted env).adds (want_inv h wanted env) trivial
    | keyframe codec env =>
      obtain ⟨socket, hsocket, rfl⟩ := Option.map_eq_some_iff.mp hs
      exact (keyframe_calm share codec env).adds (keyframe_inv h codec env) trivial
    -- A frame goes into the encoders; only what comes out of them is sent.
    | frame size env =>
      obtain ⟨htrack, hnext⟩ := Option.ite_none_right_eq_some.mp hs
      cases hnext
      have hcalm := frame_calm share size env
      refine hcalm.adds ⟨h.fresh.calm hcalm, fun _ => frame_track (h.track htrack) size env,
        fun hshell => ?_⟩ trivial
      rw [hcalm.source, htrack] at hshell
      cases hshell
    -- What an encoder gives: whether this keeps the stream decodable is the condition.
    | output codec key big =>
      obtain ⟨held, hheld, hrest⟩ := Option.bind_eq_some_iff.mp hs
      split at hrest
      · cases hrest
      · next asked inside hinside =>
        split at hrest
        · cases hrest
        · next hkey =>
          cases hrest
          have htrack : share.source = .track := by
            cases hsource : share.source with
            | track => rfl
            | shell =>
              rw [(h.shell hsource).encoders codec] at hheld
              cases hheld
          obtain ⟨fate, hlog, -⟩ :=
            send_cases (share.setEncoder codec (some { held with inside := inside })) codec key big
          obtain ⟨hinv, hdecodable⟩ := @output_iff share codec h htrack held asked inside hheld
            hinside key big (by simpa using hkey)
          exact ⟨hinv, ⟨[_], hlog⟩, hdecodable⟩
    -- an encoder that breaks sends nothing
    | breaks codec now =>
      obtain ⟨held, hheld, rfl⟩ := Option.map_eq_some_iff.mp hs
      have hcalm := failed_calm share codec now
      refine hcalm.adds ⟨h.fresh.calm hcalm,
        fun htrack => failed_track (h.track (hcalm.source ▸ htrack)) codec now,
        fun hshell => ?_⟩ trivial
      rw [(h.shell (hcalm.source ▸ hshell)).encoders codec] at hheld
      cases hheld
    -- The shell's own frames, under the same condition.
    | shellFrame codec key big bufferedAmount =>
      obtain ⟨hshell, hnext⟩ := Option.ite_none_right_eq_some.mp hs
      cases hnext
      obtain ⟨fate, hlog, -⟩ := shellFrame_cases share codec key big bufferedAmount
      obtain ⟨hinv, hdecodable⟩ := shellFrame_iff h hshell codec key big bufferedAmount
      exact ⟨hinv, ⟨[_], hlog⟩, hdecodable⟩

theorem decodable_of_append {outs log : List Out} (h : Decodable (outs ++ log)) :
    Decodable log := by
  induction outs with
  | nil => exact h
  | cons out outs ih => exact ih h.2

theorem run_log {source : Source} {codecs : List Codec} {events : List Event} (h : Inv share)
    (hr : (machine source codecs).runFrom share events = some next) :
    ∃ outs, next.log = outs ++ share.log := by
  induction events generalizing share with
  | nil =>
    cases hr
    exact ⟨[], rfl⟩
  | cons event events ih =>
    obtain ⟨middle, hone, hrest⟩ := Option.bind_eq_some_iff.mp hr
    have hadds := step_adds h hone
    obtain ⟨outs, hlog⟩ := hadds.log
    obtain ⟨outs', hlog'⟩ := ih hadds.inv hrest
    exact ⟨outs' ++ outs, by rw [hlog', hlog, List.append_assoc]⟩

/-- From a state where it is, a run keeps what was sent decodable just when each of its steps is
allowed. -/
theorem run_iff {source : Source} {codecs : List Codec} {events : List Event} (h : Inv share)
    (hd : Decodable share.log) (hr : (machine source codecs).runFrom share events = some next) :
    Decodable next.log ↔ (machine source codecs).MeetsFrom Allowed share events := by
  induction events generalizing share with
  | nil =>
    cases hr
    exact ⟨fun _ => trivial, fun _ => hd⟩
  | cons event events ih =>
    obtain ⟨middle, hone, hrest⟩ := Option.bind_eq_some_iff.mp hr
    have hadds := step_adds h hone
    constructor
    · intro hnext
      obtain ⟨outs, hlog⟩ := run_log hadds.inv hrest
      have hmiddle : Decodable middle.log := decodable_of_append (hlog ▸ hnext)
      refine ⟨(hadds.decodable hd).mp hmiddle, fun other hother => ?_⟩
      cases hother.symm.trans hone
      exact (ih hadds.inv hmiddle hrest).mp hnext
    · intro hmeets
      have hmiddle : Decodable middle.log := (hadds.decodable hd).mpr hmeets.1
      exact (ih hadds.inv hmiddle hrest).mpr (hmeets.2 middle hone)

end Steps

/-- What a share sends can be decoded if and only if no frame that needs the one before it was
passed on after one that had been left out for its size (the page's) or while nobody wanted its
format (the shell's). -/
theorem decodable_iff (source : Source) (codecs : List Codec) (events : List Event)
    (share : Sharing)
    (hr : (machine source codecs).run events = some share) :
    Decodable share.log ↔ (machine source codecs).Meets Allowed events := by
  have hinv : Inv (Sharing.new source codecs) := by
    refine ⟨⟨?_, ?_, ?_⟩, fun _ => track_of_none rfl,
      fun _ => ⟨fun _ => rfl, fun socket hopen => by cases hopen⟩⟩
    · exact fun out hin => absurd hin List.not_mem_nil
    · exact fun socket hsocket => by cases hsocket
    · exact fun socket hsocket => by cases hsocket
  exact run_iff hinv trivial hr

/-- What is asked of the open socket, if there is one. -/
instance (share : Sharing) (asked : ℕ → Prop) [DecidablePred asked] :
    Decidable (∀ socket, share.socket = some ⟨socket, .opened⟩ → asked socket) :=
  decidable_of_iff (∀ socket ∈ share.socket, socket.ready = .opened → asked socket.id)
    ⟨fun h socket hopen => h ⟨socket, .opened⟩ hopen rfl,
      fun h socket hsocket hopen => h socket.id (hopen ▸ hsocket)⟩

instance (share : Sharing) (event : Event) : Decidable (Allowed share event) := by
  unfold Allowed
  split <;> infer_instance

/-- Nothing stands in a frame's way. -/
def clear : Env := ⟨0, 0, 0, true, true⟩

/-- VP8 is wanted, and a frame is encoded and sent. -/
def opening : List Event :=
  [.connects, .opens, .want [.vp8] fun _ => clear, .frame (8, 8) fun _ => clear,
    .output .vp8 true false]

/-- A frame that is too big comes out alone, and the next is a key frame. -/
def alone : List Event := opening ++ [.frame (8, 8) fun _ => clear, .output .vp8 false true,
  .frame (8, 8) fun _ => clear, .output .vp8 true false]

theorem decodable_iff_alone :
    ∃ share, (machine .track [.vp8]).run alone = some share ∧ Decodable share.log := by
  have hmeets : (machine .track [.vp8]).Meets Allowed alone := by decide
  obtain ⟨share, hr⟩ := Option.isSome_iff_exists.mp
    (show ((machine .track [.vp8]).run alone).isSome = true from rfl)
  exact ⟨share, hr, (decodable_iff .track [.vp8] alone share hr).mpr hmeets⟩

/-- With another frame inside already, that one is sent without it. And so is one of the shell's,
after one that came while nobody watched. -/
theorem skips_one : (∃ share, (machine .track [.vp8]).run (opening ++ [.frame (8, 8) fun _ => clear,
      .frame (8, 8) fun _ => clear, .output .vp8 false true, .output .vp8 false false]) =
        some share ∧ ¬ Decodable share.log) ∧
    ∃ share, (machine .shell [.vp8]).run [.connects, .opens, .want [.vp8] fun _ => clear,
      .shellFrame .vp8 true false 0, .want [] fun _ => clear, .shellFrame .vp8 false false 0,
      .want [.vp8] fun _ => clear,
        .shellFrame .vp8 false false 0] = some share ∧ ¬ Decodable share.log := by
  constructor
  · refine ⟨_, rfl, fun h => ?_⟩
    have hsent := h.1 0 rfl rfl [⟨.vp8, false, .tooBig⟩] rfl _ List.mem_cons_self
    cases hsent
  · refine ⟨_, rfl, fun h => ?_⟩
    have hsent := h.1 0 rfl rfl [⟨.vp8, false, .unwanted⟩] rfl _ List.mem_cons_self
    cases hsent

end Linger.ScreenShare
