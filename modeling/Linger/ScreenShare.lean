import Linger.StepMachine
import Mathlib.Logic.Function.Basic
import Mathlib.Data.List.Basic

/-! Sharing your screen: the page's encoders and the desktop shell's frames, the sockets they go out
on, and what becomes of each frame that was given to an encoder. Times are in milliseconds. -/
namespace Linger.ScreenShare
open StepMachine

inductive Codec where
  | vp8
  | avc1
deriving DecidableEq

/-- `WebSocket.readyState`. -/
inductive ReadyState where
  | connecting
  | opened
  | closing
deriving DecidableEq

structure Socket where
  id : ℕ
  ready : ReadyState
deriving DecidableEq

/-- How much may wait in the socket before frames are skipped. -/
def mostWaiting : ℕ := 1500000

/-- How many frames may wait in an encoder before frames are skipped. -/
def mostEncoding : ℕ := 2

def keyframeEveryMs : ℕ := 10000

/-- An encoder that fails this many times in this long is given up on. -/
def maxFails : ℕ := 3
def failsWithinMs : ℕ := 10000

/-- A format's encoder, and the frames waiting inside it: whether each was asked to be a key
frame. -/
structure Encoder where
  size : ℕ × ℕ
  keyAt : Option ℕ
  wantKey : Bool
  inside : List Bool
deriving DecidableEq

/-- What became of a frame. -/
inductive Fate where
  | sent (socket : ℕ)
  /-- There was no open socket. -/
  | offline
  | unwanted
  /-- Over `MAX_FRAME_BYTES`. -/
  | tooBig
  /-- The line to the server was behind. -/
  | behind
  /-- It waited for the next key frame. -/
  | waits
  /-- Its encoder was closed with the frame inside. -/
  | closed
deriving DecidableEq

structure Out where
  codec : Codec
  key : Bool
  fate : Fate
deriving DecidableEq

inductive Source where
  | track
  | shell
deriving DecidableEq

/-- A share, and what became of each frame, the latest first. -/
structure Sharing where
  source : Source
  codecs : List Codec
  socket : Option Socket
  made : ℕ
  encoders : Codec → Option Encoder
  wanted : List Codec
  latest : Option (ℕ × ℕ)
  fails : Codec → List ℕ
  done : Bool
  shellWaitsForKey : Codec → Bool
  log : List Out

/-- What a call of `encode` meets: what waits in the socket and in the encoder, the time, whether an
encoder can be made, and whether it takes the frame. -/
structure Env where
  bufferedAmount : ℕ
  encodeQueueSize : ℕ
  now : ℕ
  opens : Bool
  takes : Bool
deriving DecidableEq

namespace Sharing

def new (source : Source) (codecs : List Codec) : Sharing :=
  ⟨source, codecs, none, 0, fun _ => none, [], none, fun _ => [], false, fun _ => true, []⟩

def setEncoder (share : Sharing) (codec : Codec) (held : Option Encoder) : Sharing :=
  { share with encoders := Function.update share.encoders codec held }

/-- `closeEncoder`: the frames inside never come out. -/
def closeEncoder (share : Sharing) (codec : Codec) : Sharing :=
  match share.encoders codec with
  | none => share
  | some held =>
    { share.setEncoder codec none with
      log := (held.inside.map fun asked => ⟨codec, asked, .closed⟩).reverse ++ share.log }

/-- End it. -/
def finish (share : Sharing) : Sharing :=
  { (share.closeEncoder .vp8).closeEncoder .avc1 with done := true, socket := none, latest := none }

/-- An encoder broke. -/
def failed (share : Sharing) (codec : Codec) (now : ℕ) : Sharing :=
  let share := share.closeEncoder codec
  let recent := (share.fails codec ++ [now]).filter fun at' => now < at' + failsWithinMs
  if recent.length < maxFails then { share with fails := Function.update share.fails codec recent }
  else
    let share := { share with
      fails := Function.update share.fails codec []
      codecs := share.codecs.filter (· ≠ codec) }
    if share.codecs = [] then share.finish else { share with socket := none, wanted := [] }

/-- `encode`, once there is an encoder of the frame's size. -/
def encodeOn (share : Sharing) (codec : Codec) (held : Encoder) (forceKey : Bool) (env : Env) :
    Sharing :=
  let share := share.setEncoder codec (some held)
  if mostEncoding < env.encodeQueueSize then share
  else
    let key := forceKey || held.wantKey || held.keyAt.all fun at' => at' + keyframeEveryMs < env.now
    if env.takes then
      share.setEncoder codec (some { held with
        inside := held.inside ++ [key]
        wantKey := held.wantKey && !key
        keyAt := if key then some env.now else held.keyAt })
    else share.failed codec env.now

def isOpen (share : Sharing) : Bool := share.socket.any fun socket => socket.ready = .opened

def encode (share : Sharing) (codec : Codec) (size : ℕ × ℕ) (forceKey : Bool) (env : Env) :
    Sharing :=
  if !share.isOpen then share
  else if mostWaiting < env.bufferedAmount then share
  else
    match (share.encoders codec).filter fun held => held.size = size with
    | some held => share.encodeOn codec held forceKey env
    | none =>
      let share := share.closeEncoder codec
      if env.opens then share.encodeOn codec ⟨size, none, true, []⟩ forceKey env
        else share.failed codec env.now

/-- A frame goes to every format's encoder, in turn. -/
def encodeAll (share : Sharing) (codecs : List Codec) (size : ℕ × ℕ) (forceKey : Bool)
    (env : ℕ → Env) : Sharing :=
  codecs.zipIdx.foldl (fun share codec => share.encode codec.1 size forceKey (env codec.2)) share

/-- `want`: the server says which formats somebody watching wants. -/
def want (share : Sharing) (wanted : List Codec) (env : ℕ → Env) : Sharing :=
  let share := if Codec.vp8 ∈ wanted then share else share.closeEncoder .vp8
  let share := if Codec.avc1 ∈ wanted then share else share.closeEncoder .avc1
  let share := { share with wanted := wanted }
  match share.source, share.latest with
  | .track, some latest => share.encodeAll wanted latest true env
  | _, _ => share

/-- `keyframe`: somebody watching needs one. -/
def keyframe (share : Sharing) (codec : Codec) (env : Env) : Sharing :=
  match share.source with
  | .shell => share
  | .track =>
    let share :=
      share.setEncoder codec ((share.encoders codec).map fun held => { held with wantKey := true })
    match share.latest with
    | some latest => if codec ∈ share.wanted then share.encode codec latest true env else share
    | none => share

def frame (share : Sharing) (size : ℕ × ℕ) (env : ℕ → Env) : Sharing :=
  { share with latest := some size }.encodeAll share.wanted size false env

def tells (share : Sharing) (codec : Codec) (key : Bool) (fate : Fate) : Sharing :=
  { share with log := ⟨codec, key, fate⟩ :: share.log }

/-- What comes out of an encoder is sent, unless it is too big. -/
def send (share : Sharing) (codec : Codec) (key big : Bool) : Sharing :=
  match share.socket with
  | some ⟨socket, .opened⟩ =>
    if codec ∉ share.wanted then share.tells codec key .unwanted
    else if big then
      (share.setEncoder codec ((share.encoders codec).map fun held =>
        { held with wantKey := true })).tells codec key .tooBig
    else share.tells codec key (.sent socket)
  | _ => share.tells codec key .offline

/-- A frame from the shell, already encoded. -/
def shellFrame (share : Sharing) (codec : Codec) (key big : Bool) (bufferedAmount : ℕ) : Sharing :=
  match share.socket with
  | some ⟨socket, .opened⟩ =>
    if codec ∉ share.wanted then share.tells codec key .unwanted
    else if share.shellWaitsForKey codec && !key then share.tells codec key .waits
    else if big then
      { share with shellWaitsForKey := Function.update share.shellWaitsForKey codec true }.tells
        codec key .tooBig
    else if mostWaiting < bufferedAmount then
      { share with shellWaitsForKey := Function.update share.shellWaitsForKey codec true }.tells
        codec key .behind
    else
      { share with shellWaitsForKey := Function.update share.shellWaitsForKey codec false }.tells
        codec key (.sent socket)
  | _ => share.tells codec key .offline

end Sharing

inductive Event where
  /-- A token is there, and a socket is made. -/
  | connects
  | opens
  | closing
  /-- The socket closed or went silent: it is tried again, or the share is over. -/
  | closed (ends : Bool)
  | finishes
  | want (wanted : List Codec) (env : ℕ → Env)
  | keyframe (codec : Codec) (env : Env)
  | frame (size : ℕ × ℕ) (env : ℕ → Env)
  /-- The first frame inside an encoder comes out: a key frame if it was asked to be. -/
  | output (codec : Codec) (key big : Bool)
  | breaks (codec : Codec) (now : ℕ)
  | shellFrame (codec : Codec) (key big : Bool) (bufferedAmount : ℕ)

namespace Sharing

def step (share : Sharing) (event : Event) : Option Sharing :=
  if share.done then none
  else
    match event with
    | .connects =>
      some { share with socket := some ⟨share.made, .connecting⟩, made := share.made + 1 }
    | .opens =>
      match share.socket with
      | some ⟨socket, .connecting⟩ => some { share with socket := some ⟨socket, .opened⟩ }
      | _ => none
    | .closing => share.socket.map fun socket => { share with socket := some ⟨socket.id, .closing⟩ }
    | .closed ends =>
      share.socket.map fun _ => if ends then share.finish else { share with socket := none }
    | .finishes => some share.finish
    | .want wanted env => share.socket.map fun _ => share.want wanted env
    | .keyframe codec env => share.socket.map fun _ => share.keyframe codec env
    | .frame size env => if share.source = .track then some (share.frame size env) else none
    | .output codec key big =>
      (share.encoders codec).bind fun held =>
        match held.inside with
        | [] => none
        | asked :: inside =>
          if asked && !key then none
          else some
            ((share.setEncoder codec (some { held with inside := inside })).send codec key big)
    | .breaks codec now => (share.encoders codec).map fun _ => share.failed codec now
    | .shellFrame codec key big bufferedAmount =>
      if share.source = .shell then some (share.shellFrame codec key big bufferedAmount) else none

end Sharing

def machine (source : Source) (codecs : List Codec) : Machine Sharing Event :=
  ⟨.new source codecs, Sharing.step⟩

/-- What of a format came after the last key frame sent on a socket, the latest first. -/
def sinceKey (codec : Codec) (socket : ℕ) : List Out → Option (List Out)
  | [] => none
  | out :: older =>
    if out.codec ≠ codec then sinceKey codec socket older
    else if out.key = true ∧ out.fate = .sent socket then some []
    else (sinceKey codec socket older).map (out :: ·)

/-- A frame is no key frame and is sent: so was everything of its format since the last key frame
sent there. -/
def Follows (out : Out) (older : List Out) : Prop :=
  ∀ socket, out.fate = .sent socket → out.key = false →
    ∀ between, sinceKey out.codec socket older = some between →
    ∀ before ∈ between, before.fate = .sent socket

/-- After a key frame, the frames sent are the first of those that came after it. -/
def Decodable : List Out → Prop
  | [] => True
  | out :: older => Follows out older ∧ Decodable older

/-- One of a format was left out for this since the last key frame sent on the socket. -/
def leftOut (cause : Fate) (codec : Codec) (socket : ℕ) (log : List Out) : Bool :=
  (sinceKey codec socket log).any fun between => between.any fun out => out.fate = cause

/-- No frame that needs the one before it is passed on after one that was too big for the page's
socket, or that the shell's was not asked for. -/
def Allowed (share : Sharing) : Event → Prop
  | .output codec false false =>
    ∀ socket, share.socket = some ⟨socket, .opened⟩ → codec ∈ share.wanted →
      leftOut .tooBig codec socket share.log = false
  | .shellFrame codec false false bufferedAmount =>
    ∀ socket, share.socket = some ⟨socket, .opened⟩ →
      codec ∈ share.wanted → share.shellWaitsForKey codec = false → bufferedAmount ≤ mostWaiting →
        leftOut .unwanted codec socket share.log = false
  | _ => True

end Linger.ScreenShare
