import Linger.RateLimits

/-! What the buckets say, as one level for every key at every moment. Nothing of it is ever
forgotten: a bucket that has refilled says what no bucket says. -/
namespace Linger.RateLimits
open FiniteMap TokenBucket

variable {limits : String → Limit} {limit : Limit} {bucket : Bucket} {limiter : RateLimiter}
  {now next : ℚ} {key other : String} {ops : List (ℚ × Op)}

theorem Limit.capacity_pos (limit : Limit) : 0 < limit.capacity := Nat.cast_pos.mpr limit.events_pos

theorem Limit.one_le_capacity (limit : Limit) : 1 ≤ limit.capacity :=
  Nat.one_le_cast.mpr limit.events_pos

theorem Limit.ratePerSec_pos (limit : Limit) : 0 < limit.ratePerSec :=
  div_pos limit.capacity_pos (Nat.cast_pos.mpr limit.perSeconds_pos)

/-- The level of every key. -/
abbrev Levels := String → ℚ

/-- A token from a level, or how long until there is one. -/
def draw (limit : Limit) (level : ℚ) : ℚ × Except ℕ Unit :=
  if 1 ≤ level then (level - 1, .ok ())
    else (level, .error (asU64 ((1 - level) / limit.ratePerSec * 1000)))

section Run
variable (limits)

def Levels.full : Levels := fun key => (limits key).capacity

def Levels.wait (levels : Levels) (passed : ℚ) : Levels :=
  fun key => refill (limits key).capacity (limits key).ratePerSec (levels key) passed

def Levels.take (levels : Levels) (now : ℚ) : Op → Levels × List Entry
  | .check key _ =>
    (Function.update levels key (draw (limits key) (levels key)).1,
      [.answered key now (draw (limits key) (levels key)).2])
  | .refund key =>
    (Function.update levels key (giveBack (limits key).capacity (levels key)), [.refunded key])
  | .sweep => (levels, [])

def Levels.run (levels : Levels) (now : ℚ) : List (ℚ × Op) → (Levels × ℚ) × List Entry
  | [] => ((levels, now), [])
  | (next, op) :: ops =>
    let (levels, entries) := Levels.take limits (levels.wait limits (next - now)) next op
    let (reached, later) := Levels.run levels next ops
    (reached, entries ++ later)

def RateLimiter.level (limiter : RateLimiter) (now : ℚ) : Levels := fun key =>
  match limiter.buckets[key]? with
  | none => (limits key).capacity
  | some bucket =>
    refill (limits key).capacity (limits key).ratePerSec bucket.tokens (now - bucket.lastRefill)

end Run

/-- What every bucket keeps: when it is full again is never out of step with its tokens. -/
structure Bucket.Sound (limit : Limit) (now : ℚ) (bucket : Bucket) : Prop where
  tokens_nonneg : 0 ≤ bucket.tokens
  tokens_le : bucket.tokens ≤ limit.capacity
  past : bucket.lastRefill ≤ now
  fullAt_eq :
    bucket.fullAt = bucket.lastRefill + (limit.capacity - bucket.tokens) / limit.ratePerSec

theorem Bucket.Sound.later (h : bucket.Sound limit now) (hnext : now ≤ next) :
    bucket.Sound limit next :=
  { h with past := h.past.trans hnext }

theorem Bucket.updateFullAt_sound (hnonneg : 0 ≤ bucket.tokens)
    (hle : bucket.tokens ≤ limit.capacity)
    (hpast : bucket.lastRefill ≤ now) :
    (bucket.updateFullAt limit.capacity limit.ratePerSec).Sound limit now := by
  constructor
  case tokens_nonneg => exact hnonneg
  case tokens_le => exact hle
  case past => exact hpast
  case fullAt_eq =>
    show bucket.lastRefill + max (limit.capacity - bucket.tokens) 0 / limit.ratePerSec = _
    rw [max_eq_left (sub_nonneg.mpr hle)]
    rfl

/-- The limiter is sound, and the levels are what its buckets say. -/
structure Shows (limits : String → Limit) (now : ℚ) (limiter : RateLimiter) (levels : Levels) :
    Prop where
  sound : ∀ (key : String) (bucket : Bucket), limiter.buckets[key]? = some bucket →
    bucket.Sound (limits key) now
  shown : limiter.level limits now = levels

variable {levels : Levels}

theorem Shows.new (limits : String → Limit) (now : ℚ) :
    Shows limits now (RateLimiter.new now) (Levels.full limits) := by
  have hnone : ∀ key : String, (RateLimiter.new now).buckets[key]? = none :=
    fun key => Std.ExtTreeMap.getElem?_empty
  constructor
  case sound =>
    intro key bucket hat
    rw [hnone key] at hat
    exact absurd hat (by simp)
  case shown =>
    funext key
    rw [RateLimiter.level, hnone key]
    rfl

theorem Shows.nonneg (h : Shows limits now limiter levels) (key : String) : 0 ≤ levels key := by
  rw [← h.shown, RateLimiter.level]
  split
  · exact (limits key).capacity_pos.le
  · next bucket hat =>
    have hsound := h.sound key bucket hat
    exact hsound.tokens_nonneg.trans
      (le_refill (limits key).ratePerSec_pos.le (sub_nonneg.mpr hsound.past) hsound.tokens_le)

theorem Shows.le (h : Shows limits now limiter levels) (key : String) :
    levels key ≤ (limits key).capacity := by
  rw [← h.shown, RateLimiter.level]
  split
  · exact le_rfl
  · exact refill_le _ _ _ _

theorem Shows.wait (h : Shows limits now limiter levels) (hnext : now ≤ next) :
    Shows limits next limiter (levels.wait limits (next - now)) := by
  have hwait : 0 ≤ next - now := sub_nonneg.mpr hnext
  constructor
  case sound => exact fun key bucket hat => (h.sound key bucket hat).later hnext
  case shown =>
    funext key
    have hrate := (limits key).ratePerSec_pos.le
    rw [Levels.wait, ← h.shown, RateLimiter.level, RateLimiter.level]
    split
    · exact (refill_full hrate hwait).symm
    · rw [refill_refill hrate hwait]
      congr 1
      ring

/-- A bucket it forgets has refilled, and says what no bucket says. -/
theorem Shows.forgetRefilled (h : Shows limits now limiter levels) :
    Shows limits now (limiter.forgetRefilled now) levels := by
  have hat : ∀ key : String, (limiter.forgetRefilled now).buckets[key]? =
      limiter.buckets[key]?.filter fun bucket => now < bucket.fullAt :=
    fun key => Std.ExtTreeMap.getElem?_filter'
  constructor
  case sound =>
    intro key bucket hkept
    rw [hat key] at hkept
    exact h.sound key bucket (Option.eq_some_of_filter_eq_some hkept)
  case shown =>
    rw [← h.shown]
    funext key
    rw [RateLimiter.level, RateLimiter.level, hat key]
    cases hbucket : limiter.buckets[key]? with
    | none => rfl
    | some bucket =>
      by_cases hlater : now < bucket.fullAt
      · rw [Option.filter_some_pos (by simpa using hlater)]
      · have hsound := h.sound key bucket hbucket
        have hrate := (limits key).ratePerSec_pos
        have hrefilled : (limits key).capacity ≤
            bucket.tokens + (now - bucket.lastRefill) * (limits key).ratePerSec := by
          have hpassed : ((limits key).capacity - bucket.tokens) / (limits key).ratePerSec ≤
              now - bucket.lastRefill := by
            have hfull := not_lt.mp hlater
            rw [hsound.fullAt_eq] at hfull
            linarith only [hfull]
          linarith only [(div_le_iff₀ hrate).mp hpassed]
        rw [Option.filter_some_neg (by simpa using hlater)]
        exact (refill_of_full hrefilled).symm

theorem Shows.sweepIfDue (h : Shows limits now limiter levels) (missed : Bool) :
    Shows limits now (limiter.sweepIfDue missed now) levels := by
  unfold RateLimiter.sweepIfDue
  split
  · exact h
  · split
    · exact h
    · have hsame : Shows limits now { limiter with nextSweep := now + sweepEvery } levels :=
        ⟨h.sound, h.shown⟩
      exact hsame.forgetRefilled

/-- A bucket that is put in place of a key's shows its own level there. -/
theorem Shows.insert (h : Shows limits now limiter levels) (hsound : bucket.Sound (limits key) now)
    {level : ℚ}
    (hlevel : refill (limits key).capacity (limits key).ratePerSec bucket.tokens
      (now - bucket.lastRefill) = level) :
    Shows limits now { limiter with
      buckets := limiter.buckets.insert key bucket } (Function.update levels key level) := by
  constructor
  case sound =>
    intro other found hat
    rw [insert_at] at hat
    split at hat
    · next he =>
      cases hat
      exact he ▸ hsound
    · exact h.sound other found hat
  case shown =>
    funext other
    rw [RateLimiter.level, insert_at, ← h.shown]
    by_cases he : other = key
    · rw [if_pos he, he, Function.update_self]
      exact hlevel
    · rw [if_neg he, Function.update_of_ne he]
      rfl

end Linger.RateLimits
