import Linger.Ebml

/-! A voice message's file: the recorder's packets as its answer holds them, and put into a WebM
file. What the app counts with stays far below 2 ^ 53, where its numbers are exact. -/
namespace Linger.VoiceFile
open Ebml

section Writing

/-- The recorder's packets are 20 ms of sound each, at 48 kHz. -/
def packetMs : ℕ := 20
def sampleRate : ℕ := 48000
def clusterMs : ℕ := 5000
def seekPreRollNs : ℕ := 80000000

def concat (parts : List Bytes) : Bytes := parts.flatten

def idBytes (id : ℕ) : Bytes :=
  if id = 0 then [] else idBytes (id / 256) ++ [UInt8.ofNat (id % 256)]

/-- How long a size is written: as few bytes as hold it, from `length` on. -/
def sizeLength (size length : ℕ) : ℕ :=
  if 2 ^ (7 * length) - 1 ≤ size then sizeLength size (length + 1) else length
termination_by size + 1 - length
decreasing_by
  have hless : length < 2 ^ length := Nat.lt_two_pow_self
  have hle : 2 ^ length ≤ 2 ^ (7 * length) := Nat.pow_le_pow_right (by decide) (by omega)
  omega

/-- A size as an EBML variable-length integer: as few bytes as hold it, with all ones (unknown)
never used. -/
def sizeBytes (size : ℕ) : Bytes :=
  let length := sizeLength size 1
  marked length (bytesOf length size)

/-- An element: its ID's bytes, then its size, then its body. -/
def element (id : ℕ) (body : Bytes) : Bytes := concat [idBytes id, sizeBytes body.length, body]

def uintLength (value length : ℕ) : ℕ :=
  if 2 ^ (8 * length) ≤ value then uintLength value (length + 1) else length
termination_by value + 1 - length
decreasing_by
  have hless : length < 2 ^ length := Nat.lt_two_pow_self
  have hle : 2 ^ length ≤ 2 ^ (8 * length) := Nat.pow_le_pow_right (by decide) (by omega)
  omega

/-- The bytes of an unsigned integer: as few as hold it, or `width` of them whatever it says. -/
def uintBytes (value : ℕ) (width : Option ℕ) : Bytes :=
  bytesOf (width.getD (uintLength value 1)) value

def uint (id value : ℕ) (width : Option ℕ) : Bytes := element id (uintBytes value width)

/-- A whole number as a double: its exponent, and what is left of it below the leading bit. -/
def float64 (value : ℕ) : ℕ :=
  if value = 0 then 0
  else (1023 + value.log2) * 2 ^ 52 + (value * 2 ^ 52 / 2 ^ value.log2 - 2 ^ 52)

def float (id value : ℕ) : Bytes := element id (bytesOf 8 (float64 value))

/-- The texts written are ASCII. -/
def textBytes (value : String) : Bytes := value.toList.map fun char => UInt8.ofNat char.toNat

def text (id : ℕ) (value : String) : Bytes := element id (textBytes value)

/-- Little-endian, in two bytes. -/
def twoBytes (value : ℕ) : Bytes := [UInt8.ofNat (value % 256), UInt8.ofNat (value / 256 % 256)]

/-- Opus's own header: version 1, one channel, the samples to drop from the start, the rate, no gain
and the plain channel mapping. -/
def opusHead (preSkip : ℕ) : Bytes :=
  textBytes "OpusHead" ++ [1, 1] ++ twoBytes preSkip ++ (bytesOf 4 sampleRate).reverse ++
    twoBytes 0 ++ [0]

/-- Track 1, the time from the cluster's start as a signed 16-bit count, and a keyframe. -/
def blockBytes (packet : Bytes) (offsetMs : ℕ) : Bytes :=
  concat [0x81 :: bytesOf 2 offsetMs ++ [0x80], packet]

def simpleBlock (packet : Bytes) (offsetMs : ℕ) : Bytes := element 0xa3 (blockBytes packet offsetMs)

structure ClusterBytes where
  atMs : ℕ
  bytes : Bytes

def perCluster : ℕ := clusterMs / packetMs

def clustersFrom (packets : List Bytes) (first : ℕ) : List ClusterBytes :=
  if first < packets.length then
    let atMs := first * packetMs
    let blocks := ((packets.drop first).take perCluster).mapIdx fun index packet =>
      simpleBlock packet (index * packetMs)
    ⟨atMs, element 0x1f43b675 (concat (uint 0xe7 atMs none :: blocks))⟩ ::
      clustersFrom packets (first + perCluster)
  else []
termination_by packets.length - first
decreasing_by
  have hpositive : 0 < perCluster := by decide
  omega

def cuePoint (atMs position : ℕ) : Bytes :=
  element 0xbb (concat [uint 0xb3 atMs (some 8),
    element 0xb7 (concat [uint 0xf7 1 none, uint 0xf1 position (some 8)])])

def pointsFrom (position : ℕ) : List ClusterBytes → List Bytes
  | [] => []
  | cluster :: clusters =>
    cuePoint cluster.atMs position :: pointsFrom (position + cluster.bytes.length) clusters

/-- Nanoseconds, to the nearest. -/
def codecDelay (preSkip : ℕ) : ℕ := (2 * preSkip * 10 ^ 9 + sampleRate) / (2 * sampleRate)

def header : Bytes :=
  element 0x1a45dfa3
    (concat [uint 0x4286 1 none, uint 0x42f7 1 none, uint 0x42f2 4 none, uint 0x42f3 8 none,
    text 0x4282 "webm", uint 0x4287 4 none, uint 0x4285 2 none])

def info (durationMs : ℕ) : Bytes :=
  element 0x1549a966
    (concat [uint 0x2ad7b1 1000000 none, text 0x4d80 "Linger", text 0x5741 "Linger",
    float 0x4489 durationMs])

def tracks (preSkip : ℕ) : Bytes :=
  element 0x1654ae6b (element 0xae (concat [uint 0xd7 1 none, uint 0x73c5 1 none, uint 0x83 2 none,
    text 0x86 "A_OPUS", element 0x63a2 (opusHead preSkip), uint 0x56aa (codecDelay preSkip) none,
    uint 0x56bb seekPreRollNs none,
    element 0xe1 (concat [float 0xb5 sampleRate, uint 0x9f 1 none])]))

/-- The whole file, from the recorder's packets in order. -/
def opusWebm (packets : List Bytes) (preSkip : ℕ) : Bytes :=
  let info := info (packets.length * packetMs)
  let tracks := tracks preSkip
  let clusters := clustersFrom packets 0
  let cuesSize := (element 0x1c53bb6b (concat (clusters.map fun _ => cuePoint 0 0))).length
  let cues :=
    element 0x1c53bb6b (concat (pointsFrom (info.length + tracks.length + cuesSize) clusters))
  concat [header,
    element 0x18538067 (concat ([info, tracks, cues] ++ clusters.map ClusterBytes.bytes))]

end Writing

section Clips

structure Clip where
  preSkip : ℕ
  packets : List Bytes
deriving DecidableEq

/-- What the recorder can make: a 16-bit lookahead, and packets whose lengths two bytes hold. -/
structure Clip.Fits (clip : Clip) : Prop where
  skips : clip.preSkip < 2 ^ 16
  packets : ∀ packet ∈ clip.packets, packet.length < 2 ^ 16

/-- The recorder's answer: the lookahead, then each packet as its length and its bytes, cut to what
the length says. -/
def Clip.toBytes (clip : Clip) : Bytes :=
  twoBytes clip.preSkip ++ clip.packets.flatMap fun packet =>
    let length := min packet.length (2 ^ 16 - 1)
    twoBytes length ++ packet.take length

def ofTwo (low high : UInt8) : ℕ := low.toNat + 256 * high.toNat

def readPackets : Bytes → Option (List Bytes)
  | [] => some []
  | [_] => none
  | low :: high :: rest =>
    if rest.length < ofTwo low high then none
    else (readPackets (rest.drop (ofTwo low high))).map (rest.take (ofTwo low high) :: ·)
termination_by bytes => bytes.length
decreasing_by
  rw [List.length_drop, List.length_cons, List.length_cons]
  omega

/-- None for anything that isn't that shape. -/
def readClip : Bytes → Option Clip
  | low :: high :: rest => (readPackets rest).map (⟨ofTwo low high, ·⟩)
  | _ => none

end Clips

section Elements

theorem idBytes_eq {width id : ℕ} (hless : id < 256 ^ (width + 1)) (hle : 256 ^ width ≤ id) :
    idBytes id = bytesOf (width + 1) id := by
  have hpositive : id ≠ 0 := by
    have hpow : 0 < 256 ^ width := Nat.pow_pos (by decide)
    omega
  induction width generalizing id with
  | zero =>
    have hrest : id / 256 = 0 := Nat.div_eq_of_lt (by omega)
    rw [idBytes, if_neg hpositive, hrest, idBytes, if_pos rfl]
    rfl
  | succ width ih =>
    rw [Nat.pow_succ] at hless hle
    have hrest : 256 ^ width ≤ id / 256 := (Nat.le_div_iff_mul_le (by decide)).mpr hle
    have hpow : 0 < 256 ^ width := Nat.pow_pos (by decide)
    rw [idBytes, if_neg hpositive,
      ih (Nat.div_lt_of_lt_mul (by rw [Nat.mul_comm]; exact hless)) hrest (by omega)]
    rfl

theorem sizeLength_spec (size length : ℕ) :
    size < 2 ^ (7 * sizeLength size length) - 1 ∧ length ≤ sizeLength size length ∧
    (sizeLength size length = length ∨ 2 ^ (7 * (sizeLength size length - 1)) - 1 ≤ size) := by
  fun_induction sizeLength size length with
  | case1 length hle ih =>
    obtain ⟨hfits, hmore, hfewest⟩ := ih
    refine ⟨hfits, by omega, Or.inr ?_⟩
    rcases hfewest with heq | hprevious
    · rw [heq, Nat.add_sub_cancel]
      exact hle
    · exact hprevious
  | case2 length hfits => exact ⟨not_le.mp hfits, le_rfl, Or.inl rfl⟩

theorem uintLength_spec (value length : ℕ) : value < 2 ^ (8 * uintLength value length) ∧
    (uintLength value length = length ∨ 2 ^ (8 * (uintLength value length - 1)) ≤ value) := by
  fun_induction uintLength value length with
  | case1 length hle ih =>
    obtain ⟨hfits, hfewest⟩ := ih
    refine ⟨hfits, Or.inr ?_⟩
    rcases hfewest with heq | hprevious
    · rw [heq, Nat.add_sub_cancel]
      exact hle
    · exact hprevious
  | case2 length hfits => exact ⟨not_le.mp hfits, Or.inl rfl⟩

theorem sizeLength_le {size : ℕ} (h : size < maxSize) : sizeLength size 1 ≤ 8 := by
  obtain ⟨-, -, hfewest⟩ := sizeLength_spec size 1
  rcases hfewest with heq | hprevious
  · omega
  · by_contra hmore
    have hpow : 2 ^ 56 ≤ 2 ^ (7 * (sizeLength size 1 - 1)) :=
      Nat.pow_le_pow_right (by decide) (by omega)
    unfold maxSize at h
    omega

theorem uintLength_le {value : ℕ} (h : value < 2 ^ 64) : uintLength value 1 ≤ 8 := by
  obtain ⟨-, hfewest⟩ := uintLength_spec value 1
  rcases hfewest with heq | hprevious
  · omega
  · by_contra hmore
    have hpow : 2 ^ 64 ≤ 2 ^ (8 * (uintLength value 1 - 1)) :=
      Nat.pow_le_pow_right (by decide) (by omega)
    omega

/-- An ID the reader knows is written in the width its first byte says. -/
theorem idBytes_valid {id : ℕ} (h : ValidId id) :
    ∃ width, 1 ≤ width ∧ width ≤ 4 ∧ 2 ^ (7 * width) ≤ id ∧
    id < 2 ^ (7 * width + 1) ∧ idBytes id = bytesOf width id := by
  obtain ⟨width, hmem, hle, hless⟩ := h
  have hbounds : 1 ≤ width ∧ width ≤ 4 := by
    simp only [List.mem_cons, List.not_mem_nil, or_false] at hmem
    omega
  obtain ⟨previous, rfl⟩ := Nat.exists_eq_add_of_le' hbounds.1
  refine ⟨previous + 1, hbounds.1, hbounds.2, hle, hless, idBytes_eq ?_ ?_⟩
  · rw [show (256 : ℕ) = 2 ^ 8 from rfl, ← Nat.pow_mul]
    exact hless.trans_le (Nat.pow_le_pow_right (by decide) (by omega))
  · rw [show (256 : ℕ) = 2 ^ 8 from rfl, ← Nat.pow_mul]
    exact le_trans (Nat.pow_le_pow_right (by decide) (by omega)) hle

theorem readSize_sizeBytes {size : ℕ} (h : size < maxSize) (rest : Bytes) :
    readSize (sizeBytes size ++ rest) = some (size, rest) := by
  obtain ⟨hfits, hone, hfewest⟩ := sizeLength_spec size 1
  exact readSize_marked hone (sizeLength_le h) hfits hfewest rest

/-- What is written as an element is read as one. -/
theorem element_writes : Writes element := by
  intro id body rest hid hsize
  obtain ⟨width, hone, hfour, hle, hless, hbytes⟩ := idBytes_valid hid
  have hparts :
      element id body ++ rest = bytesOf width id ++ (sizeBytes body.length ++ (body ++ rest)) := by
    simp [element, concat, hbytes]
  rw [hparts, readElement, readId_bytesOf hone (by omega) hless hle, Option.bind_some]
  dsimp only
  rw [readSize_sizeBytes hsize, Option.bind_some]
  dsimp only
  rw [if_neg (by rw [List.length_append]; omega), List.take_left, List.drop_left]

theorem marked_length (width : ℕ) (bytes : Bytes) : (marked width bytes).length = bytes.length := by
  cases bytes <;> rfl

theorem element_length (id : ℕ) (body : Bytes) :
    (element id body).length = (idBytes id).length + sizeLength body.length 1 + body.length := by
  rw [element, concat, List.flatten_cons, List.flatten_cons, List.flatten_cons, List.flatten_nil,
    List.append_nil, List.length_append, List.length_append, sizeBytes, marked_length,
    bytesOf_length, Nat.add_assoc]

theorem element_length_le {id : ℕ} {body : Bytes} (hid : ValidId id)
    (hsize : body.length < maxSize) :
    (element id body).length ≤ body.length + 12 := by
  obtain ⟨width, -, hfour, -, -, hbytes⟩ := idBytes_valid hid
  have hsizes := sizeLength_le hsize
  rw [element_length, hbytes, bytesOf_length]
  omega

theorem writeAll_length_le {nodes : List Node} {size : ℕ}
    (h : ∀ node ∈ nodes, (node.write element).length ≤ size) :
    (writeAll element nodes).length ≤ nodes.length * size := by
  induction nodes with
  | nil => exact Nat.zero_le _
  | cons node nodes ih =>
    have hnode := h node List.mem_cons_self
    have hnodes := ih fun other hmem => h other (List.mem_cons_of_mem _ hmem)
    rw [writeAll, List.length_append, List.length_cons, Nat.succ_mul]
    omega

end Elements

section Reading

theorem ofTwo_twoBytes {value : ℕ} (h : value < 2 ^ 16) :
    ofTwo (UInt8.ofNat (value % 256)) (UInt8.ofNat (value / 256 % 256)) = value := by
  rw [ofTwo, UInt8.toNat_ofNat', UInt8.toNat_ofNat']
  omega

theorem ofTwo_lt (low high : UInt8) : ofTwo low high < 2 ^ 16 := by
  have hlow := low.toNat_lt
  have hhigh := high.toNat_lt
  unfold ofTwo
  omega

theorem twoBytes_ofTwo (low high : UInt8) : twoBytes (ofTwo low high) = [low, high] := by
  have hlow := low.toNat_lt
  have hhigh := high.toNat_lt
  have hvalue : ofTwo low high % 256 = low.toNat ∧ ofTwo low high / 256 % 256 = high.toNat := by
    unfold ofTwo
    omega
  rw [twoBytes, hvalue.1, hvalue.2, UInt8.ofNat_toNat, UInt8.ofNat_toNat]

/-- How a packet no longer than two bytes can say is written. -/
theorem packet_written {packet : Bytes} (h : packet.length < 2 ^ 16) :
    (let length := min packet.length (2 ^ 16 - 1); twoBytes length ++ packet.take length) =
      twoBytes packet.length ++ packet := by
  dsimp only
  rw [Nat.min_eq_left (by omega), List.take_length]

theorem readPackets_eq {packets : List Bytes} (h : ∀ packet ∈ packets, packet.length < 2 ^ 16) :
    readPackets (packets.flatMap fun packet => twoBytes packet.length ++ packet) =
      some packets := by
  induction packets with
  | nil =>
    rw [List.flatMap_nil, readPackets]
  | cons packet packets ih =>
    have hrest := ih fun other hmem => h other (List.mem_cons_of_mem _ hmem)
    have hlength := ofTwo_twoBytes (h packet List.mem_cons_self)
    rw [List.flatMap_cons, List.append_assoc, twoBytes, List.cons_append, List.cons_append,
      List.nil_append, readPackets]
    rw [hlength, if_neg (by rw [List.length_append]; omega), List.drop_left, List.take_left, hrest,
      Option.map_some]

theorem readPackets_sound {bytes : Bytes} {packets : List Bytes}
    (h : readPackets bytes = some packets) :
    (∀ packet ∈ packets, packet.length < 2 ^ 16) ∧
      bytes = packets.flatMap fun packet => twoBytes packet.length ++ packet := by
  fun_induction readPackets bytes generalizing packets with
  | case1 =>
    cases h
    exact ⟨by simp, rfl⟩
  | case2 => cases h
  | case3 => cases h
  | case4 low high rest hfits ih =>
    obtain ⟨others, hothers, rfl⟩ := Option.map_eq_some_iff.mp h
    obtain ⟨hless, hbytes⟩ := ih hothers
    have htaken : (rest.take (ofTwo low high)).length = ofTwo low high :=
      List.length_take_of_le (not_lt.mp hfits)
    have hsize := ofTwo_lt low high
    refine ⟨List.forall_mem_cons.mpr ⟨by rw [htaken]; exact hsize, hless⟩, ?_⟩
    rw [List.flatMap_cons, ← hbytes, htaken, twoBytes_ofTwo, List.append_assoc,
      List.take_append_drop]
    rfl

theorem toBytes_eq {clip : Clip} (h : clip.Fits) : clip.toBytes =
    twoBytes clip.preSkip ++ clip.packets.flatMap fun packet =>
      twoBytes packet.length ++ packet := by
  rw [Clip.toBytes]
  congr 1
  rw [List.flatMap_def, List.flatMap_def]
  congr 1
  exact List.map_congr_left fun packet hmem => packet_written (h.packets packet hmem)

/-- Reading takes back what the recorder writes, and nothing else. -/
theorem readClip_eq_some {bytes : Bytes} {clip : Clip} :
    readClip bytes = some clip ↔ clip.Fits ∧ bytes = clip.toBytes := by
  constructor
  · intro h
    match bytes, h with
    | low :: high :: rest, h =>
      obtain ⟨packets, hpackets, rfl⟩ := Option.map_eq_some_iff.mp h
      obtain ⟨hless, hbytes⟩ := readPackets_sound hpackets
      have hfits : Clip.Fits ⟨ofTwo low high, packets⟩ := ⟨ofTwo_lt low high, hless⟩
      refine ⟨hfits, ?_⟩
      rw [toBytes_eq hfits, twoBytes_ofTwo, ← hbytes]
      rfl
  · rintro ⟨hfits, rfl⟩
    rw [toBytes_eq hfits, twoBytes, List.cons_append, List.cons_append, List.nil_append, readClip,
      readPackets_eq hfits.packets, ofTwo_twoBytes hfits.skips]
    rfl

end Reading

section Playing

/-- The IDs of the elements that hold elements. -/
def isMaster (id : ℕ) : Bool :=
  id ∈ [0x1a45dfa3, 0x18538067, 0x1549a966, 0x1654ae6b, 0xae, 0xe1, 0x1c53bb6b, 0xbb, 0xb7,
    0x1f43b675]

/-- A signed 16-bit number. -/
def signedOf (high low : UInt8) : ℤ :=
  let value := valueOf [high, low]
  if value < 2 ^ 15 then value else value - 2 ^ 16

structure Cluster where
  time : ℕ
  blocks : List (ℤ × Bytes)

/-- A block of track 1: its time from its cluster's start, and its packet. -/
def blockOf : Node → Option (ℤ × Bytes)
  | .data id (track :: high :: low :: _flags :: packet) =>
    if id = 0xa3 ∧ track = 0x81 then some (signedOf high low, packet) else none
  | _ => none

def clusterOf : Node → Option Cluster
  | .master id (.data timeId time :: blocks) =>
    if id = 0x1f43b675 ∧ timeId = 0xe7 then (blocks.mapM blockOf).map (⟨valueOf time, ·⟩) else none
  | _ => none

/-- A cue: a time, and the place of what plays then. -/
def cueOf : Node → Option (ℕ × ℕ)
  | .master id [.data timeId time,
      .master positionsId [.data trackId track, .data positionId position]] =>
    if id = 0xbb ∧ timeId = 0xb3 ∧ positionsId = 0xb7 ∧ trackId = 0xf7 ∧ valueOf track = 1 ∧
        positionId = 0xf1 then
      some (valueOf time, valueOf position)
    else none
  | _ => none

/-- What a player finds in a segment: its cues, and its clusters after them. -/
def soundOf : List Node → Option (List (ℕ × ℕ) × List Cluster)
  | _info :: _tracks :: .master id points :: clusters =>
    if id = 0x1c53bb6b then
      (points.mapM cueOf).bind fun cues => (clusters.mapM clusterOf).map (cues, ·)
    else none
  | _ => none

/-- When each packet of a cluster plays. -/
def Cluster.timed (cluster : Cluster) : List (ℤ × Bytes) :=
  cluster.blocks.map fun block => (cluster.time + block.1, block.2)

end Playing

section Nodes

def uintNode (id value : ℕ) (width : Option ℕ) : Node := .data id (uintBytes value width)

def headerNode : Node :=
  .master 0x1a45dfa3 [uintNode 0x4286 1 none, uintNode 0x42f7 1 none, uintNode 0x42f2 4 none,
    uintNode 0x42f3 8 none, .data 0x4282 (textBytes "webm"), uintNode 0x4287 4 none,
    uintNode 0x4285 2 none]

def infoNode (durationMs : ℕ) : Node :=
  .master 0x1549a966 [uintNode 0x2ad7b1 1000000 none, .data 0x4d80 (textBytes "Linger"),
    .data 0x5741 (textBytes "Linger"), .data 0x4489 (bytesOf 8 (float64 durationMs))]

def tracksNode (preSkip : ℕ) : Node :=
  .master 0x1654ae6b
    [.master 0xae [uintNode 0xd7 1 none, uintNode 0x73c5 1 none, uintNode 0x83 2 none,
    .data 0x86 (textBytes "A_OPUS"), .data 0x63a2 (opusHead preSkip),
    uintNode 0x56aa (codecDelay preSkip) none, uintNode 0x56bb seekPreRollNs none,
    .master 0xe1 [.data 0xb5 (bytesOf 8 (float64 sampleRate)), uintNode 0x9f 1 none]]]

/-- The packets of the cluster that starts with the `first`th. -/
def packetsFrom (packets : List Bytes) (first : ℕ) : List Bytes :=
  (packets.drop first).take perCluster

def clusterNode (packets : List Bytes) (first : ℕ) : Node :=
  .master 0x1f43b675 (uintNode 0xe7 (first * packetMs) none ::
    (packetsFrom packets first).mapIdx fun index packet =>
      .data 0xa3 (blockBytes packet (index * packetMs)))

/-- The first packets of the clusters. -/
def firsts (count first : ℕ) : List ℕ :=
  if first < count then first :: firsts count (first + perCluster) else []
termination_by count - first
decreasing_by
  have hpositive : 0 < perCluster := by decide
  omega

def clusterNodes (packets : List Bytes) : List Node :=
  (firsts packets.length 0).map (clusterNode packets)

def pointNode (atMs position : ℕ) : Node :=
  .master 0xbb [uintNode 0xb3 atMs (some 8),
    .master 0xb7 [uintNode 0xf7 1 none, uintNode 0xf1 position (some 8)]]

/-- A point for each cluster, laid from `position` on. -/
def pointNodes (packets : List Bytes) : ℕ → List ℕ → List Node
  | _, [] => []
  | position, first :: rest => pointNode (first * packetMs) position ::
      pointNodes packets (position + ((clusterNode packets first).write element).length) rest

def cuesSize (count : ℕ) : ℕ :=
  (element 0x1c53bb6b (concat ((firsts count 0).map fun _ => cuePoint 0 0))).length

/-- Where the clusters start in the segment's body. -/
def clustersAt (packets : List Bytes) (preSkip : ℕ) : ℕ :=
  (info (packets.length * packetMs)).length + (tracks preSkip).length + cuesSize packets.length

def segmentNodes (packets : List Bytes) (preSkip : ℕ) : List Node :=
  infoNode (packets.length * packetMs) :: tracksNode preSkip ::
    .master 0x1c53bb6b
      (pointNodes packets (clustersAt packets preSkip) (firsts packets.length 0)) ::
    clusterNodes packets

variable {packets : List Bytes} {preSkip : ℕ}

theorem concat_cons (part : Bytes) (parts : List Bytes) :
    concat (part :: parts) = part ++ concat parts := List.flatten_cons

theorem concat_nil : concat [] = [] := rfl

theorem uintNode_write (id value : ℕ) (width : Option ℕ) :
    (uintNode id value width).write element = uint id value width := rfl

theorem header_write : headerNode.write element = header := by
  simp only [headerNode, header, Node.write, writeAll, uintNode_write, concat_cons, concat_nil,
    text]

theorem info_write (durationMs : ℕ) : (infoNode durationMs).write element = info durationMs := by
  simp only [infoNode, info, Node.write, writeAll, uintNode_write, concat_cons, concat_nil, text,
    float]

theorem tracks_write (preSkip : ℕ) : (tracksNode preSkip).write element = tracks preSkip := by
  simp only [tracksNode, tracks, Node.write, writeAll, uintNode_write, concat_cons, concat_nil,
    text, float, List.append_nil]

theorem point_write (atMs position : ℕ) :
    (pointNode atMs position).write element = cuePoint atMs position := by
  simp only [pointNode, cuePoint, Node.write, writeAll, uintNode_write, concat_cons, concat_nil]

theorem writeAll_map {α : Type} (f : α → Node) (items : List α) :
    writeAll element (items.map f) = concat (items.map fun item => (f item).write element) := by
  induction items with
  | nil => rfl
  | cons item items ih => rw [List.map_cons, writeAll, ih, List.map_cons, concat_cons]

theorem cluster_write (packets : List Bytes) (first : ℕ) :
    (clusterNode packets first).write element =
    element 0x1f43b675 (concat (uint 0xe7 (first * packetMs) none ::
      (packetsFrom packets first).mapIdx fun index packet =>
        simpleBlock packet (index * packetMs))) := by
  rw [clusterNode, Node.write, writeAll, uintNode_write, concat_cons, List.mapIdx_eq_zipIdx_map,
    writeAll_map, List.mapIdx_eq_zipIdx_map]
  rfl

theorem clustersFrom_eq (packets : List Bytes) (first : ℕ) : clustersFrom packets first =
    (firsts packets.length first).map fun first =>
    ⟨first * packetMs, (clusterNode packets first).write element⟩ := by
  fun_induction clustersFrom packets first with
  | case1 first hless atMs blocks ih =>
    rw [firsts, if_pos hless, List.map_cons, ← ih, cluster_write]
    rfl
  | case2 first hless => rw [firsts, if_neg hless, List.map_nil]

theorem pointsFrom_eq (packets : List Bytes) (position : ℕ) (all : List ℕ) :
    pointsFrom position
      (all.map fun first => ⟨first * packetMs, (clusterNode packets first).write element⟩) =
      (pointNodes packets position all).map fun node => node.write element := by
  induction all generalizing position with
  | nil => rfl
  | cons first all ih => rw [List.map_cons, pointsFrom, ih, pointNodes, List.map_cons, point_write]

/-- The file is its nodes, written. -/
theorem opusWebm_eq (packets : List Bytes) (preSkip : ℕ) : opusWebm packets preSkip =
    writeAll element [headerNode, .master 0x18538067 (segmentNodes packets preSkip)] := by
  have hpoints : concat (pointsFrom (clustersAt packets preSkip) (clustersFrom packets 0)) =
      writeAll element
        (pointNodes packets (clustersAt packets preSkip) (firsts packets.length 0)) := by
    have hmap :=
      writeAll_map id (pointNodes packets (clustersAt packets preSkip) (firsts packets.length 0))
    rw [List.map_id] at hmap
    rw [clustersFrom_eq, pointsFrom_eq, hmap]
    rfl
  have hclusters : concat ((clustersFrom packets 0).map ClusterBytes.bytes) =
      writeAll element (clusterNodes packets) := by
    rw [clustersFrom_eq, clusterNodes, writeAll_map, List.map_map]
    rfl
  have hsize :
      (element 0x1c53bb6b (concat ((clustersFrom packets 0).map fun _ => cuePoint 0 0))).length =
      cuesSize packets.length := by
    rw [clustersFrom_eq, List.map_map]
    rfl
  rw [opusWebm, hsize]
  change concat [header,
    element 0x18538067 (concat ([info (packets.length * packetMs), tracks preSkip,
    element 0x1c53bb6b
      (concat (pointsFrom (clustersAt packets preSkip) (clustersFrom packets 0)))] ++ _))] = _
  rw [hpoints, List.cons_append, List.cons_append, List.cons_append, List.nil_append, concat_cons,
    concat_cons, concat_cons, concat_cons, concat_cons, concat_nil, hclusters, segmentNodes,
    writeAll, writeAll, writeAll, header_write,
    Node.write, writeAll, writeAll, writeAll, info_write, tracks_write, Node.write]

theorem flatten_map_length {α : Type} (f : α → Bytes) (size : ℕ) (items : List α)
    (h : ∀ item ∈ items, (f item).length = size) :
    (concat (items.map f)).length = items.length * size := by
  induction items with
  | nil => simp [concat]
  | cons item items ih =>
    rw [List.map_cons, concat_cons, List.length_append, h item List.mem_cons_self,
      ih fun other hmem => h other (List.mem_cons_of_mem _ hmem), List.length_cons, Nat.succ_mul,
      Nat.add_comm]

theorem uint_length (id value width : ℕ) :
    (uint id value (some width)).length = (element id (List.replicate width 0)).length := by
  rw [uint, uintBytes, Option.getD_some, element_length, element_length, bytesOf_length,
    List.length_replicate]

/-- A cue is as long whatever it says. -/
theorem cuePoint_length (atMs position : ℕ) :
    (cuePoint atMs position).length = (cuePoint 0 0).length := by
  rw [cuePoint, cuePoint, element_length, element_length]
  simp only [concat_cons, concat_nil, List.length_append, element_length 0xb7, uint_length _ _ 8]

theorem points_length (position : ℕ) (all : List ℕ) :
    (pointNodes packets position all).length = all.length := by
  induction all generalizing position with
  | nil => rfl
  | cons first all ih => rw [pointNodes, List.length_cons, ih, List.length_cons]

theorem point_mem {position : ℕ} {all : List ℕ} {node : Node}
    (h : node ∈ pointNodes packets position all) :
    ∃ atMs place, node = pointNode atMs place := by
  induction all generalizing position with
  | nil => cases h
  | cons first all ih =>
    rcases List.mem_cons.mp h with heq | hmem
    · exact ⟨_, _, heq⟩
    · exact ih hmem

/-- The cues take the room that was left for them, so the clusters start where the cues count
from. -/
theorem clustersAt_eq (packets : List Bytes) (preSkip : ℕ) : clustersAt packets preSkip =
    (writeAll element [infoNode (packets.length * packetMs), tracksNode preSkip,
      .master 0x1c53bb6b
        (pointNodes packets (clustersAt packets preSkip) (firsts packets.length 0))]).length := by
  have hpoints : ∀ position,
      (writeAll element (pointNodes packets position (firsts packets.length 0))).length =
      (concat ((firsts packets.length 0).map fun _ => cuePoint 0 0)).length := by
    intro position
    have hmap := writeAll_map id (pointNodes packets position (firsts packets.length 0))
    rw [List.map_id] at hmap
    rw [hmap, flatten_map_length _ (cuePoint 0 0).length,
      flatten_map_length _ (cuePoint 0 0).length, points_length]
    · intro item _
      rfl
    · intro node hmem
      obtain ⟨atMs, place, rfl⟩ := point_mem hmem
      exact (congrArg List.length (point_write atMs place)).trans (cuePoint_length atMs place)
  rw [writeAll, writeAll, writeAll, writeAll, info_write, tracks_write, Node.write, List.append_nil,
    List.length_append, List.length_append, element_length, hpoints, ← element_length, ← cuesSize,
    ← Nat.add_assoc]
  rfl

end Nodes

section Sizes
variable {packets : List Bytes} {preSkip : ℕ}

/-- An element that fits, and is no longer than that when written. -/
def Small (size : ℕ) (node : Node) : Prop :=
  node.Fits isMaster element ∧ (node.write element).length ≤ size

theorem Small.mono {size more : ℕ} {node : Node} (h : Small size node) (hle : size ≤ more) :
    Small more node :=
  ⟨h.1, h.2.trans hle⟩

theorem data_small (size : ℕ) {id : ℕ} {body : Bytes} (hid : ValidId id)
    (hdata : isMaster id = false)
    (hbody : body.length ≤ size) (hsize : size < maxSize) : Small (size + 12) (.data id body) := by
  have hless := hbody.trans_lt hsize
  exact ⟨⟨hid, hdata, hless⟩, (element_length_le hid hless).trans (Nat.add_le_add_right hbody 12)⟩

theorem master_small (size total : ℕ) {id : ℕ} {kids : List Node} (hid : ValidId id)
    (hmaster : isMaster id = true)
    (hkids : ∀ kid ∈ kids, Small size kid) (hle : kids.length * size ≤ total)
    (htotal : total < maxSize) :
    Small (total + 12) (.master id kids) := by
  have hbody := (writeAll_length_le fun kid hmem => (hkids kid hmem).2).trans hle
  have hless := hbody.trans_lt htotal
  exact ⟨⟨hid, hmaster, hless, allFit_iff.mpr fun kid hmem => (hkids kid hmem).1⟩,
    (element_length_le hid hless).trans (Nat.add_le_add_right hbody 12)⟩

theorem uint_small {id value : ℕ} {width : Option ℕ} (hid : ValidId id)
    (hdata : isMaster id = false)
    (hwidth : width = some 8 ∨ width = none ∧ value < 2 ^ 64) :
    Small 20 (uintNode id value width) := by
  have hbytes : (uintBytes value width).length ≤ 8 := by
    rw [uintBytes, bytesOf_length]
    rcases hwidth with rfl | ⟨rfl, hvalue⟩
    · exact le_rfl
    · exact uintLength_le hvalue
  exact data_small 8 hid hdata hbytes (by decide)

theorem header_small : Small 152 headerNode := by
  apply master_small 20 140 (by decide) (by decide) _ (by simp) (by decide)
  intro kid hmem
  simp only [List.mem_cons, List.not_mem_nil, or_false] at hmem
  rcases hmem with rfl | rfl | rfl | rfl | rfl | rfl | rfl
  case inr.inr.inr.inr.inl =>
    apply (data_small 4 (by decide) (by decide) (by decide) (by decide)).mono
    decide
  all_goals exact uint_small (by decide) (by decide) (Or.inr ⟨rfl, by decide⟩)

theorem info_small (durationMs : ℕ) : Small 92 (infoNode durationMs) := by
  apply master_small 20 80 (by decide) (by decide) _ (by simp) (by decide)
  intro kid hmem
  simp only [List.mem_cons, List.not_mem_nil, or_false] at hmem
  rcases hmem with rfl | rfl | rfl | rfl
  · exact uint_small (by decide) (by decide) (Or.inr ⟨rfl, by decide⟩)
  · exact (data_small 6 (by decide) (by decide) (by decide) (by decide)).mono (by decide)
  · exact (data_small 6 (by decide) (by decide) (by decide) (by decide)).mono (by decide)
  · exact data_small 8 (by decide) (by decide) (bytesOf_length _ _).le (by decide)

theorem codecDelay_lt (h : preSkip < 2 ^ 16) : codecDelay preSkip < 2 ^ 64 := by
  unfold codecDelay sampleRate
  omega

theorem opusHead_length (preSkip : ℕ) : (opusHead preSkip).length = 19 := by
  simp [opusHead, twoBytes, textBytes, bytesOf_length]

theorem tracks_small (h : preSkip < 2 ^ 16) : Small 440 (tracksNode preSkip) := by
  have haudio : Small 52
      (.master 0xe1 [.data 0xb5 (bytesOf 8 (float64 sampleRate)), uintNode 0x9f 1 none]) := by
    apply master_small 20 40 (by decide) (by decide) _ (by simp) (by decide)
    intro kid hmem
    simp only [List.mem_cons, List.not_mem_nil, or_false] at hmem
    rcases hmem with rfl | rfl
    · exact data_small 8 (by decide) (by decide) (bytesOf_length _ _).le (by decide)
    · exact uint_small (by decide) (by decide) (Or.inr ⟨rfl, by decide⟩)
  apply master_small 428 428 (by decide) (by decide) _ (by simp) (by decide)
  intro entry hentry
  rw [List.mem_singleton.mp hentry]
  apply master_small 52 416 (by decide) (by decide) _ (by simp) (by decide)
  intro kid hmem
  have huint : ∀ id value, ValidId id → isMaster id = false → value < 2 ^ 64 →
      Small 52 (uintNode id value none) :=
    fun id value hid hdata hvalue => (uint_small hid hdata (Or.inr ⟨rfl, hvalue⟩)).mono (by decide)
  simp only [List.mem_cons, List.not_mem_nil, or_false] at hmem
  rcases hmem with rfl | rfl | rfl | rfl | rfl | rfl | rfl | rfl
  · exact huint _ _ (by decide) (by decide) (by decide)
  · exact huint _ _ (by decide) (by decide) (by decide)
  · exact huint _ _ (by decide) (by decide) (by decide)
  · exact (data_small 6 (by decide) (by decide) (by decide) (by decide)).mono (by decide)
  · exact (data_small 19 (by decide) (by decide) (opusHead_length _).le (by decide)).mono
      (by decide)
  · exact huint _ _ (by decide) (by decide) (codecDelay_lt h)
  · exact huint _ _ (by decide) (by decide) (by decide)
  · exact haudio

theorem point_small (atMs position : ℕ) : Small 116 (pointNode atMs position) := by
  have hplace :
      Small 52 (.master 0xb7 [uintNode 0xf7 1 none, uintNode 0xf1 position (some 8)]) := by
    apply master_small 20 40 (by decide) (by decide) _ (by simp) (by decide)
    intro kid hmem
    simp only [List.mem_cons, List.not_mem_nil, or_false] at hmem
    rcases hmem with rfl | rfl
    · exact uint_small (by decide) (by decide) (Or.inr ⟨rfl, by decide⟩)
    · exact uint_small (by decide) (by decide) (Or.inl rfl)
  apply master_small 52 104 (by decide) (by decide) _ (by simp) (by decide)
  intro kid hmem
  simp only [List.mem_cons, List.not_mem_nil, or_false] at hmem
  rcases hmem with rfl | rfl
  · exact (uint_small (by decide) (by decide) (Or.inl rfl)).mono (by decide)
  · exact hplace

theorem packetsFrom_length_le (packets : List Bytes) (first : ℕ) :
    (packetsFrom packets first).length ≤ 250 :=
  List.length_take_le _ _

theorem cluster_small (hpackets : ∀ packet ∈ packets, packet.length < 2 ^ 16) {first : ℕ}
    (hfirst : first < 2 ^ 32) :
    Small 16453564 (clusterNode packets first) := by
  apply master_small 65552 16453552 (by decide) (by decide) _ _ (by decide)
  · intro kid hmem
    rcases List.mem_cons.mp hmem with rfl | hblock
    · have hvalue : first * packetMs < 2 ^ 64 := by
        unfold packetMs
        omega
      exact (uint_small (by decide) (by decide) (Or.inr ⟨rfl, hvalue⟩)).mono (by decide)
    · obtain ⟨index, hindex, rfl⟩ := List.mem_mapIdx.mp hblock
      have hpacket :=
        hpackets _ (List.mem_of_mem_drop (List.mem_of_mem_take (List.getElem_mem hindex)))
      apply data_small 65540 (by decide) (by decide) _ (by decide)
      rw [blockBytes, concat_cons, concat_cons, concat_nil, List.length_append, List.length_append,
        List.length_cons, bytesOf_length, List.append_nil, List.length_singleton]
      exact (Nat.add_lt_add_left hpacket _).le
  · have hcount := packetsFrom_length_le packets first
    rw [List.length_cons, List.length_mapIdx]
    omega

theorem firsts_lt (count first : ℕ) : ∀ other ∈ firsts count first, other < count := by
  fun_induction firsts count first with
  | case1 first hless ih => exact List.forall_mem_cons.mpr ⟨hless, ih⟩
  | case2 first hless => simp

/-- A cluster for every 250 packets, and one for what is left. -/
theorem firsts_length (count first : ℕ) :
    (firsts count first).length ≤ (count - first) / 250 + 1 := by
  fun_induction firsts count first with
  | case1 first hless ih =>
    rw [List.length_cons]
    by_cases hmore : first + perCluster < count
    · have hrest : (count - (first + perCluster)) / 250 + 1 = (count - first) / 250 := by
        rw [show count - first =
          count - (first + perCluster) + 250 by rw [show perCluster = 250 from rfl] at *; omega,
          Nat.add_div_right _ (by decide)]
      omega
    · rw [firsts, if_neg hmore, List.length_nil]
      omega
  | case2 first hless => exact Nat.zero_le _

/-- The segment fits its size, however many packets an array holds. -/
theorem segment_small (hcount : packets.length < 2 ^ 32)
    (hpackets : ∀ packet ∈ packets, packet.length < 2 ^ 16)
    (hskip : preSkip < 2 ^ 16) :
    Small (2 ^ 55 + 12) (.master 0x18538067 (segmentNodes packets preSkip)) := by
  have hbelow := firsts_lt packets.length 0
  have hfew : (firsts packets.length 0).length ≤ 17179870 := by
    have hclusters := firsts_length packets.length 0
    omega
  apply master_small 1992865060 (2 ^ 55) (by decide) (by decide) _ _ (by decide)
  · intro kid hmem
    rcases List.mem_cons.mp hmem with rfl | hmem
    · exact (info_small _).mono (by decide)
    rcases List.mem_cons.mp hmem with rfl | hmem
    · exact (tracks_small hskip).mono (by decide)
    rcases List.mem_cons.mp hmem with rfl | hmem
    · apply (master_small 116 1992865036 (by decide) (by decide) _ _ (by decide)).mono (by decide)
      · intro point hpoint
        obtain ⟨atMs, place, rfl⟩ := point_mem hpoint
        exact point_small atMs place
      · rw [points_length]
        omega
    · obtain ⟨first, hfirst, rfl⟩ := List.mem_map.mp hmem
      exact (cluster_small hpackets ((hbelow first hfirst).trans hcount)).mono (by decide)
  · rw [segmentNodes, List.length_cons, List.length_cons, List.length_cons, clusterNodes,
      List.length_map]
    omega

/-- A reader finds the file's nodes in it. -/
theorem read_opusWebm (hcount : packets.length < 2 ^ 32)
    (hpackets : ∀ packet ∈ packets, packet.length < 2 ^ 16)
    (hskip : preSkip < 2 ^ 16) : read isMaster (opusWebm packets preSkip) =
      some [headerNode, .master 0x18538067 (segmentNodes packets preSkip)] := by
  rw [opusWebm_eq]
  apply read_write element_writes
  exact ⟨header_small.1, (segment_small hcount hpackets hskip).1, trivial⟩

end Sizes

section Heard
variable {packets : List Bytes} {preSkip : ℕ}

theorem mapM_map_some {α β γ : Type} {f : α → β} {read : β → Option γ} {found : α → γ}
    {items : List α}
    (h : ∀ item ∈ items, read (f item) = some (found item)) :
    (items.map f).mapM read = some (items.map found) := by
  induction items with
  | nil => rfl
  | cons item items ih =>
    have hrest := ih fun other hmem => h other (List.mem_cons_of_mem _ hmem)
    rw [List.map_cons, List.mapM_cons, h item List.mem_cons_self, hrest]
    rfl

theorem valueOf_uintBytes (value : ℕ) : valueOf (uintBytes value none) = value := by
  obtain ⟨hfits, -⟩ := uintLength_spec value 1
  rw [uintBytes, Option.getD_none, valueOf_bytesOf, show (256 : ℕ) = 2 ^ 8 from rfl, ← Nat.pow_mul]
  exact Nat.mod_eq_of_lt hfits

theorem valueOf_eight {value : ℕ} (h : value < 2 ^ 64) :
    valueOf (uintBytes value (some 8)) = value := by
  rw [uintBytes, Option.getD_some, valueOf_bytesOf]
  exact Nat.mod_eq_of_lt h

theorem blockOf_block {packet : Bytes} {offset : ℕ} (h : offset < 2 ^ 15) :
    blockOf (.data 0xa3 (blockBytes packet offset)) = some ((offset : ℤ), packet) := by
  have hvalue : valueOf (bytesOf 2 offset) = offset := by
    rw [valueOf_bytesOf]
    exact Nat.mod_eq_of_lt (by omega)
  have hbytes :
      bytesOf 2 offset = [UInt8.ofNat (offset / 256 % 256), UInt8.ofNat (offset % 256)] := by
    rw [bytesOf_succ, bytesOf_succ]
    simp [bytesOf]
  rw [blockBytes, hbytes, concat_cons, concat_cons, concat_nil, List.append_nil]
  simp only [List.cons_append, List.nil_append, blockOf, and_self, if_true]
  rw [signedOf, ← hbytes, hvalue, if_pos h]

/-- What a player finds in the cluster that starts with the `first`th packet. -/
def clusterFrom (packets : List Bytes) (first : ℕ) : Cluster :=
  ⟨first * packetMs, (packetsFrom packets first).mapIdx fun index packet =>
    (((index * packetMs : ℕ) : ℤ), packet)⟩

theorem offset_lt {packets : List Bytes} {first index : ℕ}
    (h : index < (packetsFrom packets first).length) :
    index * packetMs < 2 ^ 15 := by
  have hcount := packetsFrom_length_le packets first
  unfold packetMs
  omega

theorem clusterOf_cluster (packets : List Bytes) (first : ℕ) :
    clusterOf (clusterNode packets first) = some (clusterFrom packets first) := by
  have hblocks : ((packetsFrom packets first).mapIdx fun index packet =>
      Node.data 0xa3 (blockBytes packet (index * packetMs))).mapM blockOf =
      some ((packetsFrom packets first).mapIdx fun index packet =>
        (((index * packetMs : ℕ) : ℤ), packet)) := by
    rw [List.mapIdx_eq_zipIdx_map, List.mapIdx_eq_zipIdx_map]
    apply mapM_map_some
    intro item hmem
    obtain ⟨-, hindex, -⟩ := List.mem_zipIdx hmem
    have hoffset := @offset_lt packets first item.2 (by omega)
    exact blockOf_block hoffset
  rw [clusterNode, uintNode, clusterOf, if_pos ⟨rfl, rfl⟩, hblocks, valueOf_uintBytes]
  rfl

theorem cueOf_point {atMs position : ℕ} (htime : atMs < 2 ^ 64) (hposition : position < 2 ^ 64) :
    cueOf (pointNode atMs position) = some (atMs, position) := by
  have htrack : valueOf (uintBytes 1 none) = 1 := valueOf_uintBytes 1
  rw [pointNode, uintNode, uintNode, uintNode, cueOf, if_pos ⟨rfl, rfl, rfl, rfl, htrack, rfl⟩,
    valueOf_eight htime, valueOf_eight hposition]

/-- The clusters of a segment, each with its time and where it starts. -/
def places (placed : List (ℕ × Node)) : List (ℕ × ℕ) :=
  placed.filterMap fun (position, node) => (clusterOf node).map fun cluster =>
    (cluster.time, position)

theorem places_cons (position first : ℕ) (rest : List (ℕ × Node)) :
    places ((position, clusterNode packets first) :: rest) =
      (first * packetMs, position) :: places rest := by
  simp [places, clusterOf_cluster, clusterFrom]

theorem points_found {all : List ℕ} {position : ℕ} (hall : ∀ first ∈ all, first < 2 ^ 32)
    (hposition : position + (writeAll element (all.map (clusterNode packets))).length < 2 ^ 64) :
    (pointNodes packets position all).mapM cueOf =
      some (places (placed element position (all.map (clusterNode packets)))) := by
  induction all generalizing position with
  | nil => rfl
  | cons first all ih =>
    rw [List.map_cons, writeAll, List.length_append] at hposition
    have hfirst := hall first List.mem_cons_self
    have htime : first * packetMs < 2 ^ 64 := by
      unfold packetMs
      omega
    have hrest := @ih (position + ((clusterNode packets first).write element).length)
      (fun other hmem => hall other (List.mem_cons_of_mem _ hmem)) (by omega)
    rw [pointNodes, List.mapM_cons, cueOf_point htime (by omega), hrest, List.map_cons, placed,
      places_cons]
    rfl

/-- Clusters hold the packets in turn, each twenty milliseconds after the one before. -/
theorem timed_from (packets : List Bytes) (first : ℕ) :
    (firsts packets.length first).flatMap (fun first => (clusterFrom packets first).timed) =
      (packets.drop first).mapIdx fun index packet =>
        ((20 * ((first + index : ℕ) : ℤ)), packet) := by
  generalize hcount : packets.length = count
  have hcluster : perCluster = 250 := rfl
  fun_induction firsts count first with
  | case1 first hless ih =>
    have hsplit :
        packets.drop first = packetsFrom packets first ++ packets.drop (first + perCluster) := by
      rw [packetsFrom, ← List.drop_drop, List.take_append_drop]
    have hhead : (clusterFrom packets first).timed =
        (packetsFrom packets first).mapIdx fun index packet =>
          ((20 * ((first + index : ℕ) : ℤ)), packet) := by
      rw [Cluster.timed, clusterFrom, List.mapIdx_eq_zipIdx_map, List.mapIdx_eq_zipIdx_map,
        List.map_map]
      apply List.map_congr_left
      rintro ⟨packet, index⟩ -
      have htime : ((first * packetMs : ℕ) : ℤ) + ((index * packetMs : ℕ) : ℤ) =
          20 * ((first + index : ℕ) : ℤ) := by
        unfold packetMs
        push_cast
        ring
      exact congrArg (·, packet) htime
    rw [List.flatMap_cons, ih, hhead, hsplit, List.mapIdx_append]
    congr 1
    by_cases hmore : first + perCluster < count
    · have hfull : (packetsFrom packets first).length = perCluster := by
        rw [packetsFrom, List.length_take, List.length_drop]
        omega
      rw [hfull]
      congr 1
      funext index packet
      rw [Nat.add_right_comm, Nat.add_assoc]
    · rw [List.drop_of_length_le (by omega)]
      rfl
  | case2 first hless =>
    rw [List.drop_of_length_le (by omega)]
    rfl

theorem places_none {nodes : List Node} (h : ∀ node ∈ nodes, clusterOf node = none) (position : ℕ) :
    places (placed element position nodes) = [] := by
  induction nodes generalizing position with
  | nil => rfl
  | cons node nodes ih =>
    have hrest := ih (fun other hmem => h other (List.mem_cons_of_mem _ hmem))
      (position + (node.write element).length)
    have hnode := h node List.mem_cons_self
    rw [placed, places, List.filterMap_cons_none (by simp [hnode])]
    exact hrest

theorem places_clusters (packets : List Bytes) (preSkip : ℕ) :
    places (placed element 0 (segmentNodes packets preSkip)) =
    places (placed element (clustersAt packets preSkip) (clusterNodes packets)) := by
  have hsplit :
      segmentNodes packets preSkip = [infoNode (packets.length * packetMs), tracksNode preSkip,
      .master 0x1c53bb6b
        (pointNodes packets (clustersAt packets preSkip) (firsts packets.length 0))] ++
      clusterNodes packets := rfl
  -- What comes before the clusters is none of them.
  have hbefore : ∀ node ∈ [infoNode (packets.length * packetMs), tracksNode preSkip,
      .master 0x1c53bb6b
        (pointNodes packets (clustersAt packets preSkip) (firsts packets.length 0))],
      clusterOf node = none := by
    intro node hmem
    simp only [List.mem_cons, List.not_mem_nil, or_false] at hmem
    rcases hmem with rfl | rfl | rfl
    · simp [infoNode, uintNode, clusterOf]
    · rfl
    · cases firsts packets.length 0 <;> rfl
  have hnone := places_none hbefore 0
  rw [places] at hnone
  rw [hsplit, placed_append, ← clustersAt_eq, Nat.zero_add, places, List.filterMap_append, hnone,
    List.nil_append, places]

/-- What the recorder answers is read back, and nothing else is taken for such an answer; and the
file made of it is read by a strict reader as its elements, in which a player finds every packet at
its time and every cue at its cluster. An array holds fewer than 2 ^ 32 packets. -/
theorem clip_and_file :
    (∀ bytes clip, readClip bytes = some clip ↔ clip.Fits ∧ bytes = clip.toBytes) ∧
    ∀ clip : Clip, clip.Fits → clip.packets.length < 2 ^ 32 → ∃ segment cues clusters,
      opusWebm clip.packets clip.preSkip =
        writeAll element [headerNode, .master 0x18538067 segment] ∧
      read isMaster (opusWebm clip.packets clip.preSkip) =
        some [headerNode, .master 0x18538067 segment] ∧
      soundOf segment = some (cues, clusters) ∧
      clusters.flatMap Cluster.timed =
        clip.packets.mapIdx (fun index packet => (20 * (index : ℤ), packet)) ∧
      (∀ cluster ∈ clusters, ∀ block ∈ cluster.blocks, 0 ≤ block.1 ∧ block.1 < 2 ^ 15) ∧
      cues = places (placed element 0 segment) ∧
      ∀ position node, (position, node) ∈ placed element 0 segment →
        node.write element <+: (writeAll element segment).drop position := by
  refine ⟨fun bytes clip => readClip_eq_some, fun clip hfits hcount => ?_⟩
  obtain ⟨preSkip, packets⟩ := clip
  have hbelow := firsts_lt packets.length 0
  have hsegment := (segment_small hcount hfits.packets hfits.skips).1.2.2.1
  have hroom :
      clustersAt packets preSkip + (writeAll element (clusterNodes packets)).length < 2 ^ 64 := by
    have hparts :=
      congrArg List.length (@writeAll_append element [infoNode (packets.length * packetMs),
      tracksNode preSkip, .master 0x1c53bb6b
        (pointNodes packets (clustersAt packets preSkip) (firsts packets.length 0))]
      (clusterNodes packets))
    rw [List.length_append, ← clustersAt_eq] at hparts
    rw [← hparts]
    exact hsegment.trans (by decide)
  refine ⟨segmentNodes packets preSkip,
    places (placed element (clustersAt packets preSkip) (clusterNodes packets)),
    (firsts packets.length 0).map (clusterFrom packets), opusWebm_eq packets preSkip,
    read_opusWebm hcount hfits.packets hfits.skips, ?_, ?_, ?_,
    (places_clusters packets preSkip).symm, fun position node hmem => placed_bytes hmem⟩
  · have hpoints := points_found (fun first hmem => (hbelow first hmem).trans hcount) hroom
    have hclusters := mapM_map_some fun first (_ : first ∈ firsts packets.length 0) =>
      clusterOf_cluster packets first
    rw [segmentNodes, soundOf, if_pos rfl, hpoints, Option.bind_some, clusterNodes, hclusters]
    rfl
  · have htimed := timed_from packets 0
    rw [List.drop_zero] at htimed
    rw [List.flatMap_map, htimed]
    simp only [Nat.zero_add]
  · intro cluster hmem block hblock
    obtain ⟨first, -, rfl⟩ := List.mem_map.mp hmem
    obtain ⟨index, hindex, rfl⟩ := List.mem_mapIdx.mp hblock
    have hoffset := offset_lt hindex
    refine ⟨Int.natCast_nonneg _, ?_⟩
    change ((index * packetMs : ℕ) : ℤ) < 2 ^ 15
    exact_mod_cast hoffset

/-- Two packets. -/
theorem clip_and_file_two : readClip [0x38, 0x01, 2, 0, 9, 8, 1, 0, 7] = some ⟨312, [[9, 8], [7]]⟩ ∧
    ∃ segment cues clusters, read isMaster (opusWebm [[9, 8], [7]] 312) =
      some [headerNode, .master 0x18538067 segment] ∧
      soundOf segment = some (cues, clusters) ∧
      clusters.flatMap Cluster.timed = [(0, [9, 8]), (20, [7])] := by
  have hfits : Clip.Fits ⟨312, [[9, 8], [7]]⟩ := ⟨by decide, by decide⟩
  obtain ⟨segment, cues, clusters, -, hread, hsound, htimed, -⟩ :=
    clip_and_file.2 ⟨312, [[9, 8], [7]]⟩ hfits (by decide)
  exact ⟨(clip_and_file.1 _ _).mpr ⟨hfits, by decide⟩, segment, cues, clusters, hread, hsound,
    htimed⟩

end Heard

end Linger.VoiceFile
