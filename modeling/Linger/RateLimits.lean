import Linger.FiniteMap
import Linger.TokenBucket
import Mathlib.Data.Rat.Floor

/-! The keyed token buckets behind the rate limits: what a check takes, what a refund gives back,
and the sweep that forgets the buckets that have refilled. Times are in seconds. -/
namespace Linger.RateLimits
open FiniteMap TokenBucket

/-- `(events, per_seconds)`. Every limit there is allows something, in some time, and the wait it
gives fits a `u64` of milliseconds. -/
structure Limit where
  events : ℕ
  perSeconds : ℕ
  events_pos : 0 < events
  perSeconds_pos : 0 < perSeconds
  wait_fits : perSeconds * 1000 < 2 ^ 64

/-- `RATE_LOGIN_PER_IP`. -/
def rateLoginPerIp : Limit := ⟨5, 60, by decide, by decide, by decide⟩

def Limit.capacity (limit : Limit) : ℚ := limit.events

def Limit.ratePerSec (limit : Limit) : ℚ := limit.capacity / limit.perSeconds

/-- `SWEEP_EVERY`. -/
def sweepEvery : ℚ := 60

structure Bucket where
  tokens : ℚ
  lastRefill : ℚ
  fullAt : ℚ
deriving DecidableEq

/-- `update_full_at`. -/
def Bucket.updateFullAt (bucket : Bucket) (capacity ratePerSec : ℚ) : Bucket :=
  { bucket with fullAt := bucket.lastRefill + max (capacity - bucket.tokens) 0 / ratePerSec }

structure RateLimiter where
  buckets : FMap String Bucket
  nextSweep : ℚ

def RateLimiter.new (now : ℚ) : RateLimiter := ⟨∅, now + sweepEvery⟩

/-- `forget_refilled`. -/
def RateLimiter.forgetRefilled (limiter : RateLimiter) (now : ℚ) : RateLimiter :=
  { limiter with buckets := limiter.buckets.filter fun _ bucket => now < bucket.fullAt }

/-- `sweep_if_due`, where `missed` says that another request was looking at when it is due. -/
def RateLimiter.sweepIfDue (limiter : RateLimiter) (missed : Bool) (now : ℚ) : RateLimiter :=
  if missed then limiter
  else if now < limiter.nextSweep then limiter
  else { limiter with nextSweep := now + sweepEvery }.forgetRefilled now

/-- The bucket brought up to date. -/
def Bucket.refilled (bucket : Bucket) (limit : Limit) (now : ℚ) : Bucket :=
  let elapsed := max (now - bucket.lastRefill) 0
  { bucket with
    tokens := min (bucket.tokens + elapsed * limit.ratePerSec) limit.capacity
    lastRefill := now }

/-- `as u64` of a wait, which stops at the greatest. -/
def asU64 (wait : ℚ) : ℕ := min ⌈wait⌉₊ (2 ^ 64 - 1)

/-- One token from it, or how long until there is one. -/
def Bucket.take (bucket : Bucket) (limit : Limit) : Bucket × Except ℕ Unit :=
  if 1 ≤ bucket.tokens then ({ bucket with tokens := bucket.tokens - 1 }, .ok ())
  else (bucket, .error (asU64 ((1 - bucket.tokens) / limit.ratePerSec * 1000)))

def RateLimiter.check (limiter : RateLimiter) (missed : Bool) (key : String) (limit : Limit)
    (now : ℚ) :
    RateLimiter × Except ℕ Unit :=
  let limiter := limiter.sweepIfDue missed now
  let bucket := limiter.buckets[key]?.getD ⟨limit.capacity, now, now⟩
  let (bucket, taken) := (bucket.refilled limit now).take limit
  let bucket := bucket.updateFullAt limit.capacity limit.ratePerSec
  ({ limiter with buckets := limiter.buckets.insert key bucket }, taken)

def Bucket.refund (bucket : Bucket) (limit : Limit) : Bucket :=
  { bucket with
    tokens := min (bucket.tokens + 1) limit.capacity }.updateFullAt limit.capacity limit.ratePerSec

def RateLimiter.refund (limiter : RateLimiter) (key : String) (limit : Limit) : RateLimiter :=
  match limiter.buckets[key]? with
  | none => limiter
  | some bucket => { limiter with buckets := limiter.buckets.insert key (bucket.refund limit) }

/-- What is asked of a limiter. A sweep may come at any time, and not only with a check. -/
inductive Op where
  | check (key : String) (missed : Bool)
  | refund (key : String)
  | sweep
deriving DecidableEq

/-- What of it can be seen. -/
inductive Entry where
  | answered (key : String) (moment : ℚ) (answer : Except ℕ Unit)
  | refunded (key : String)

section Run
variable (limits : String → Limit)

def RateLimiter.take (limiter : RateLimiter) (now : ℚ) : Op → RateLimiter × List Entry
  | .check key missed =>
    let (limiter, answer) := limiter.check missed key (limits key) now
    (limiter, [.answered key now answer])
  | .refund key => (limiter.refund key (limits key), [.refunded key])
  | .sweep => (limiter.forgetRefilled now, [])

def RateLimiter.run (limiter : RateLimiter) : List (ℚ × Op) → RateLimiter × List Entry
  | [] => (limiter, [])
  | (now, op) :: ops =>
    let (limiter, entries) := limiter.take limits now op
    let (limiter, later) := limiter.run ops
    (limiter, entries ++ later)

end Run

/-- The same with a limiter that never sweeps. -/
def unswept (ops : List (ℚ × Op)) : List (ℚ × Op) :=
  ops.filterMap fun
    | (now, .check key _) => some (now, .check key true)
    | (now, .refund key) => some (now, .refund key)
    | (_, .sweep) => none

/-- The moments a key was allowed at, the latest first, less those given back: a refund gives back
the token a check just took. -/
def keptOf (key : String) : List ℚ → List Entry → List ℚ
  | kept, [] => kept
  | kept, .answered other now (.ok _) :: entries =>
    keptOf key (if other = key then now :: kept else kept) entries
  | kept, .answered _ _ (.error _) :: entries => keptOf key kept entries
  | kept, .refunded other :: entries => keptOf key (if other = key then kept.tail else kept) entries

/-- None of these asks anything about the key. -/
def Untouched (key : String) (ops : List (ℚ × Op)) : Prop :=
  ∀ now op, (now, op) ∈ ops → (∀ missed, op ≠ .check key missed) ∧ op ≠ .refund key

end Linger.RateLimits
