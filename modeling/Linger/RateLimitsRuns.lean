import Linger.RateLimitsLevels
import Mathlib.Tactic.NormNum

/-! Runs of the limiter: they are runs of the levels, whether it sweeps or not, and so what a run
allows is bounded by the levels and a wait it gives is long enough. -/
namespace Linger.RateLimits
open FiniteMap TokenBucket

variable {limits : String →
  Limit} {limit : Limit} {bucket : Bucket} {limiter : RateLimiter} {levels : Levels}
  {now next : ℚ} {key other : String} {ops : List (ℚ × Op)} {missed : Bool}

theorem Bucket.take_draw (bucket : Bucket) (limit : Limit) :
    bucket.take limit =
      ({ bucket with tokens := (draw limit bucket.tokens).1 }, (draw limit bucket.tokens).2) := by
  unfold Bucket.take draw
  split <;> rfl

theorem draw_bounds {level : ℚ} (hnonneg : 0 ≤ level) (hle : level ≤ limit.capacity) :
    0 ≤ (draw limit level).1 ∧ (draw limit level).1 ≤ limit.capacity := by
  unfold draw
  split
  · next hone => exact ⟨sub_nonneg.mpr hone, by linarith only [hle]⟩
  · exact ⟨hnonneg, hle⟩

/-- A check draws from the level, and leaves what is left as its bucket says. -/
theorem Shows.check (h : Shows limits now limiter levels) (missed : Bool) (key : String) :
    Shows limits now (limiter.check missed key (limits key) now).1
        (Function.update levels key (draw (limits key) (levels key)).1) ∧
      (limiter.check missed key (limits key) now).2 = (draw (limits key) (levels key)).2 := by
  have hswept := h.sweepIfDue missed
  unfold RateLimiter.check
  generalize limiter.sweepIfDue missed now = swept at hswept
  dsimp only
  have hrefilled : ((swept.buckets[key]?.getD ⟨(limits key).capacity, now, now⟩).refilled
      (limits key) now).tokens =
      levels key := by
    rw [← hswept.shown, RateLimiter.level]
    cases hat : swept.buckets[key]? with
    | none =>
      show min ((limits key).capacity + max (now - now) 0 * (limits key).ratePerSec)
          (limits key).capacity = _
      rw [sub_self, max_self, zero_mul, add_zero, min_self]
    | some bucket =>
      show min (bucket.tokens + max (now - bucket.lastRefill) 0 * (limits key).ratePerSec)
          (limits key).capacity = _
      rw [max_eq_left (sub_nonneg.mpr (hswept.sound key bucket hat).past), min_comm]
      rfl
  have hlast : ((swept.buckets[key]?.getD ⟨(limits key).capacity, now, now⟩).refilled
      (limits key) now).lastRefill =
      now := rfl
  generalize (swept.buckets[key]?.getD ⟨(limits key).capacity, now, now⟩).refilled
    (limits key) now = bucket
    at hrefilled hlast
  have hdrawn := draw_bounds (h.nonneg key) (h.le key)
  rw [Bucket.take_draw, hrefilled]
  constructor
  · apply hswept.insert
    · exact Bucket.updateFullAt_sound hdrawn.1 hdrawn.2 hlast.le
    · show refill _ _ (draw (limits key) (levels key)).1 (now - bucket.lastRefill) = _
      rw [hlast, sub_self, refill_zero hdrawn.2]
  · rfl

/-- A refund adds to a bucket that is not brought up to date, and the level does not show it. -/
theorem Shows.refund (h : Shows limits now limiter levels) (key : String) :
    Shows limits now (limiter.refund key (limits key))
      (Function.update levels key (giveBack (limits key).capacity (levels key))) := by
  have hrate := (limits key).ratePerSec_pos.le
  unfold RateLimiter.refund
  split
  · next hnone =>
    have hlevel : levels key = (limits key).capacity := by rw [← h.shown, RateLimiter.level, hnone]
    have hfull : giveBack (limits key).capacity (levels key) = levels key := by
      rw [hlevel]
      exact min_eq_left (le_add_of_nonneg_right zero_le_one)
    rw [hfull, Function.update_eq_self]
    exact h
  · next bucket hat =>
    have hsound := h.sound key bucket hat
    have hgiven : 0 ≤ min (bucket.tokens + 1) (limits key).capacity :=
      le_min (add_nonneg hsound.tokens_nonneg zero_le_one) (limits key).capacity_pos.le
    apply h.insert
    · exact Bucket.updateFullAt_sound hgiven (min_le_right _ _) hsound.past
    · show refill _ _ (min (bucket.tokens + 1) (limits key).capacity) (now - bucket.lastRefill) = _
      rw [← h.shown, RateLimiter.level, hat, min_comm]
      exact refill_giveBack hrate (sub_nonneg.mpr hsound.past)

theorem Shows.take (h : Shows limits now limiter levels) (op : Op) :
    Shows limits now (limiter.take limits now op).1 (Levels.take limits levels now op).1 ∧
      (limiter.take limits now op).2 = (Levels.take limits levels now op).2 := by
  cases op with
  | check key missed =>
    obtain ⟨hshows, hanswer⟩ := h.check missed key
    refine ⟨hshows, ?_⟩
    show [Entry.answered key now (limiter.check missed key (limits key) now).2] = _
    rw [hanswer]
    rfl
  | refund key => exact ⟨h.refund key, rfl⟩
  | sweep => exact ⟨h.forgetRefilled, rfl⟩

/-- The moments do not go back. -/
def InOrder (now : ℚ) (ops : List (ℚ × Op)) : Prop := (now :: ops.map Prod.fst).IsChain (· ≤ ·)

theorem inOrder_cons {op : Op} : InOrder now ((next, op) :: ops) ↔ now ≤ next ∧ InOrder next ops :=
  List.isChain_cons_cons

theorem inOrder_append (limits : String → Limit) (levels : Levels) {before : List (ℚ × Op)}
    (h : InOrder now (before ++ ops)) :
    InOrder now before ∧ InOrder (Levels.run limits levels now before).1.2 ops := by
  induction before generalizing now levels with
  | nil => exact ⟨List.IsChain.singleton now, h⟩
  | cons first before ih =>
    obtain ⟨hnext, hrest⟩ := inOrder_cons.mp h
    obtain ⟨hbefore, hops⟩ := ih _ hrest
    exact ⟨inOrder_cons.mpr ⟨hnext, hbefore⟩, hops⟩

theorem Levels.run_cons (op : Op) : (Levels.run limits levels now ((next, op) :: ops)).1 =
    (Levels.run limits
      (Levels.take limits (levels.wait limits (next - now)) next op).1 next ops).1 := rfl

theorem Shows.run (h : Shows limits now limiter levels) (hops : InOrder now ops) :
    Shows limits (Levels.run limits levels now ops).1.2 (limiter.run limits ops).1
        (Levels.run limits levels now ops).1.1 ∧
      (limiter.run limits ops).2 = (Levels.run limits levels now ops).2 := by
  induction ops generalizing now limiter levels with
  | nil => exact ⟨h, rfl⟩
  | cons first ops ih =>
    obtain ⟨next, op⟩ := first
    obtain ⟨hnext, hrest⟩ := inOrder_cons.mp hops
    obtain ⟨htaken, hentries⟩ := (h.wait hnext).take op
    obtain ⟨hreached, hlater⟩ := ih htaken hrest
    exact ⟨hreached, congrArg₂ List.append hentries hlater⟩

/-- A limiter that never sweeps shows the same levels. -/
theorem Shows.run_unswept (h : Shows limits now limiter levels) (hops : InOrder now ops) :
    (limiter.run limits (unswept ops)).2 = (Levels.run limits levels now ops).2 := by
  induction ops generalizing now limiter levels with
  | nil => rfl
  | cons first ops ih =>
    obtain ⟨next, op⟩ := first
    obtain ⟨hnext, hrest⟩ := inOrder_cons.mp hops
    have hwaited := h.wait hnext
    cases op with
    | check key missed =>
      obtain ⟨htaken, hentries⟩ := hwaited.take (.check key true)
      exact congrArg₂ List.append hentries (ih htaken hrest)
    | refund key =>
      obtain ⟨htaken, hentries⟩ := hwaited.take (.refund key)
      exact congrArg₂ List.append hentries (ih htaken hrest)
    | sweep => exact ih hwaited hrest

section Bounded
variable {start finish : ℚ} {kept : List ℚ}

theorem keptOf_append (key : String) (kept : List ℚ) (entries later : List Entry) :
    keptOf key kept (entries ++ later) = keptOf key (keptOf key kept entries) later := by
  induction entries generalizing kept with
  | nil => rfl
  | cons entry entries ih =>
    match entry with
    | .answered _ _ (.ok _) => exact ih _
    | .answered _ _ (.error _) => exact ih _
    | .refunded _ => exact ih _

theorem Levels.take_bounded (op : Op)
    (h : Bounded (limits key).capacity (limits key).ratePerSec start finish now (levels key) kept) :
    Bounded (limits key).capacity (limits key).ratePerSec start finish now
      ((Levels.take limits levels now op).1 key)
      (keptOf key kept (Levels.take limits levels now op).2) := by
  have hrate := (limits key).ratePerSec_pos.le
  cases op with
  | check asked missed =>
    by_cases hkey : asked = key
    · subst hkey
      unfold Levels.take draw
      dsimp only
      rw [Function.update_self]
      split
      · next hone =>
        simp only [keptOf, if_true]
        exact h.take hrate hone
      · exact h
    · unfold Levels.take
      dsimp only
      rw [Function.update_of_ne (Ne.symm hkey)]
      unfold draw
      split
      · simp only [keptOf, if_neg hkey]
        exact h
      · exact h
  | refund asked =>
    by_cases hkey : asked = key
    · subst hkey
      simp only [Levels.take, keptOf, if_true, Function.update_self]
      exact h.give hrate
    · simp only [Levels.take, keptOf, if_neg hkey, Function.update_of_ne (Ne.symm hkey)]
      exact h
  | sweep => exact h

theorem Levels.run_bounded (hops : InOrder now ops)
    (h : Bounded (limits key).capacity (limits key).ratePerSec start finish now (levels key) kept) :
    Bounded (limits key).capacity (limits key).ratePerSec start finish
      (Levels.run limits levels now ops).1.2
      ((Levels.run limits levels now ops).1.1 key)
        (keptOf key kept (Levels.run limits levels now ops).2) := by
  induction ops generalizing now levels kept with
  | nil => exact h
  | cons first ops ih =>
    obtain ⟨next, op⟩ := first
    obtain ⟨hnext, hrest⟩ := inOrder_cons.mp hops
    have hwaited : Bounded (limits key).capacity (limits key).ratePerSec start finish next
        (levels.wait limits (next - now) key) kept := h.wait (limits key).ratePerSec_pos.le hnext
    have htaken := Levels.take_bounded op hwaited
    show Bounded _ _ _ _ _ _ (keptOf key kept (_ ++ _))
    rw [keptOf_append]
    exact ih hrest htaken

end Bounded

section Untouched

/-- What touches no key but others leaves its level to refill. -/
theorem Levels.run_untouched (hops : InOrder now ops) (huntouched : Untouched key ops)
    (hle : levels key ≤ (limits key).capacity) :
    now ≤ (Levels.run limits levels now ops).1.2 ∧ (Levels.run limits levels now ops).1.1 key =
      levels.wait limits ((Levels.run limits levels now ops).1.2 - now) key := by
  have hrate := (limits key).ratePerSec_pos.le
  induction ops generalizing now levels with
  | nil =>
    refine ⟨le_rfl, ?_⟩
    show levels key = refill _ _ _ (now - now)
    rw [sub_self, refill_zero hle]
  | cons first ops ih =>
    obtain ⟨next, op⟩ := first
    obtain ⟨hnext, hrest⟩ := inOrder_cons.mp hops
    have hop := huntouched next op List.mem_cons_self
    have hsame : (Levels.take limits (levels.wait limits (next - now)) next op).1 key =
        levels.wait limits (next - now) key := by
      cases op with
      | check asked missed =>
        have hother : key ≠ asked := fun he => hop.1 missed (he ▸ rfl)
        exact Function.update_of_ne hother _ _
      | refund asked =>
        have hother : key ≠ asked := fun he => hop.2 (he ▸ rfl)
        exact Function.update_of_ne hother _ _
      | sweep => rfl
    have hrefilled : levels.wait limits (next - now) key ≤ (limits key).capacity :=
      refill_le _ _ _ _
    obtain ⟨hlater, hreached⟩ :=
      ih hrest (fun moment op hmem => huntouched moment op (List.mem_cons_of_mem _ hmem))
      (hsame.le.trans hrefilled)
    rw [Levels.run_cons]
    generalize (Levels.run limits
      (Levels.take limits (levels.wait limits (next - now)) next op).1 next ops).1 = reached
      at hlater hreached
    refine ⟨hnext.trans hlater, hreached.trans ?_⟩
    calc refill _ _ ((Levels.take limits (levels.wait limits (next - now)) next op).1
        key) (reached.2 - next)
        = refill _ _ (refill _ _ (levels key) (next - now)) (reached.2 - next) := by
          rw [hsame]
          rfl
      _ = refill _ _ (levels key) (next - now + (reached.2 - next)) :=
          refill_refill hrate (sub_nonneg.mpr hlater)
      _ = levels.wait limits (reached.2 - now) key := by
          rw [add_comm, sub_add_sub_cancel]
          rfl

/-- The wait a refusal gives is as long as the token takes. -/
theorem draw_refused {level : ℚ} {wait : ℕ} (hnonneg : 0 ≤ level)
    (h : (draw limit level).2 = .error wait) :
    (draw limit level).1 = level ∧ 1 ≤ level + wait / 1000 * limit.ratePerSec := by
  unfold draw at h ⊢
  split at h
  · exact absurd h (by simp)
  · next hshort =>
    have hrate := limit.ratePerSec_pos
    have hevents : (0 : ℚ) < limit.events := Nat.cast_pos.mpr limit.events_pos
    have hseconds : (0 : ℚ) < limit.perSeconds := Nat.cast_pos.mpr limit.perSeconds_pos
    have hlong : (1 - level) / limit.ratePerSec * 1000 ≤ (limit.perSeconds * 1000 : ℕ) := by
      have hper : (1 - level) / limit.ratePerSec ≤ limit.perSeconds := by
        rw [div_le_iff₀ hrate, Limit.ratePerSec, mul_div_cancel₀ _ hseconds.ne']
        linarith only [limit.one_le_capacity, hnonneg]
      rw [Nat.cast_mul]
      exact mul_le_mul_of_nonneg_right hper (by norm_num)
    have hceil : ⌈(1 - level) / limit.ratePerSec * 1000⌉₊ ≤ limit.perSeconds * 1000 :=
      Nat.ceil_le.mpr hlong
    have hfits :
        asU64 ((1 - level) / limit.ratePerSec * 1000) = ⌈(1 - level) / limit.ratePerSec * 1000⌉₊ :=
      min_eq_left (hceil.trans (Nat.le_sub_one_of_lt limit.wait_fits))
    have hwait : ((1 - level) / limit.ratePerSec * 1000) ≤ wait := by
      have he : asU64 ((1 - level) / limit.ratePerSec * 1000) = wait := Except.error.inj h
      rw [← he, hfits]
      exact Nat.le_ceil _
    refine ⟨by rw [if_neg hshort], ?_⟩
    have hseconds : (1 - level) / limit.ratePerSec ≤ wait / 1000 := by
      rw [le_div_iff₀ (by norm_num)]
      exact hwait
    linarith only [(div_le_iff₀ hrate).mp hseconds]

theorem Shows.allowed_again (h : Shows limits now limiter levels) {asked again : ℚ} {wait : ℕ}
    {missed' : Bool}
    {between after : List (ℚ × Op)}
    (hops :
      InOrder now ((asked, .check key missed) :: (between ++ (again, .check key missed') :: after)))
    (huntouched : Untouched key between)
    (hrefused : (limiter.check missed key (limits key) asked).2 = .error wait)
    (hwaited : asked + wait / 1000 ≤ again) :
    ((limiter.run limits ((asked, .check key missed) :: between)).1.check missed' key
      (limits key) again).2 = .ok () := by
  have hrate := (limits key).ratePerSec_pos
  obtain ⟨hasked, hrest⟩ := inOrder_cons.mp hops
  have hshown := h.wait hasked
  obtain ⟨hchecked, hanswer⟩ := hshown.check missed key
  obtain ⟨hleft, hlong⟩ := draw_refused (hshown.nonneg key) (hanswer ▸ hrefused)
  rw [hleft, Function.update_eq_self] at hchecked
  generalize hlevels : levels.wait limits (asked - now) = waited at hshown hchecked hlong
  obtain ⟨hbetween, hlast⟩ := inOrder_append limits waited hrest
  obtain ⟨hreached, hlevel⟩ := Levels.run_untouched hbetween huntouched (hshown.le key)
  obtain ⟨hagain, _⟩ := inOrder_cons.mp hlast
  have hend := ((hchecked.run hbetween).1.wait hagain).check missed' key
  -- Nothing touched the level since, so by now a token has flowed in.
  have hone : 1 ≤ Levels.wait limits (Levels.run limits waited asked between).1.1
      (again - (Levels.run limits waited asked between).1.2) key := by
    have hflow :
        (wait / 1000 : ℚ) * (limits key).ratePerSec ≤ (again - asked) * (limits key).ratePerSec :=
      mul_le_mul_of_nonneg_right (by linarith only [hwaited]) hrate.le
    calc (1 : ℚ) ≤
        min (limits key).capacity (waited key + (again - asked) * (limits key).ratePerSec) :=
          le_min (limits key).one_le_capacity (by linarith only [hlong, hflow])
      _ = refill (limits key).capacity (limits key).ratePerSec (waited key) (again - asked) := rfl
      _ = _ := by
          rw [Levels.wait, hlevel, Levels.wait, refill_refill hrate.le (sub_nonneg.mpr hagain),
            add_comm, sub_add_sub_cancel]
  refine hend.2.trans ?_
  rw [draw, if_pos hone]

end Untouched

theorem RateLimiter.run_append (limiter : RateLimiter) (ops more : List (ℚ × Op)) :
    (limiter.run limits (ops ++ more)).1 = ((limiter.run limits ops).1.run limits more).1 := by
  induction ops generalizing limiter with
  | nil => rfl
  | cons first ops ih => exact ih _

/-- What a stretch of time allows a key, and is not given back, is at most the events and their
share of it. -/
theorem kept_within (limits : String → Limit) {born : ℚ} {ops : List (ℚ × Op)}
    (hops : InOrder born ops) (key : String)
    (start : ℚ) {length : ℚ} (hlength : 0 ≤ length) :
    (within start (start + length) (keptOf key [] ((RateLimiter.new born).run limits ops).2) : ℚ) ≤
      (limits key).events + length * (limits key).events / (limits key).perSeconds := by
  have hlog := ((Shows.new limits born).run hops).2
  have hfull : Bounded (limits key).capacity (limits key).ratePerSec start (start + length) born
      (Levels.full limits key) [] :=
    Bounded.full (limits key).ratePerSec_pos.le (le_add_of_nonneg_right hlength)
      (limits key).capacity_pos.le born
  have hbound := (Levels.run_bounded hops hfull).bound
  rw [← hlog, add_sub_cancel_left, Limit.ratePerSec, ← mul_div_assoc] at hbound
  exact hbound

/-- Forgetting the buckets that have refilled changes no answer; what a stretch of time allows and
is not given back is at most the events and their share of it; and a key that waits as long as it
was told, and is not asked for meanwhile, is allowed. -/
theorem forgetting_changes_nothing (limits : String → Limit) (born : ℚ) (ops : List (ℚ × Op))
    (hops : InOrder born ops) :
    ((RateLimiter.new born).run limits ops).2 =
      ((RateLimiter.new born).run limits (unswept ops)).2 ∧
    (∀ (key : String) (start length : ℚ), 0 ≤ length →
      (within start (start + length) (keptOf key [] ((RateLimiter.new born).run limits ops).2) : ℚ)
        ≤
        (limits key).events + length * (limits key).events / (limits key).perSeconds) ∧
    (∀ (key : String) (before between after : List (ℚ × Op)) (asked again : ℚ)
        (missed missed' : Bool) (wait : ℕ),
      ops =
        before ++ (asked, .check key missed) :: (between ++ (again, .check key missed') :: after) →
      Untouched key between →
      (((RateLimiter.new born).run limits before).1.check missed key (limits key) asked).2 =
        .error wait →
      asked + wait / 1000 ≤ again →
      (((RateLimiter.new born).run limits (before ++ (asked, .check key missed) :: between)).1.check
        missed' key
        (limits key) again).2 = .ok ()) := by
  have hnew := Shows.new limits born
  have hlog := (hnew.run hops).2
  refine ⟨hlog.trans (hnew.run_unswept hops).symm, ?_, ?_⟩
  · intro key start length hlength
    exact kept_within limits hops key start hlength
  · intro key before between after asked again missed missed' wait hsplit huntouched hrefused
      hwaited
    subst hsplit
    obtain ⟨hbefore, hrest⟩ := inOrder_append limits (Levels.full limits) hops
    rw [RateLimiter.run_append]
    exact (hnew.run hbefore).1.allowed_again hrest huntouched hrefused hwaited

/-- Five sign-ins at once from one address, a sixth that is told to wait 12 seconds, a sweep, and
the sixth again. -/
theorem forgetting_changes_nothing_login :
    ∃ ops : List (ℚ × Op), ∃ between after : List (ℚ × Op), ∃ before : List (ℚ × Op),
      InOrder 0 ops ∧ ops = before ++
        (1, .check "login:a" false) :: (between ++ (13, .check "login:a" false) :: after) ∧
      (((RateLimiter.new 0).run (fun _ => rateLoginPerIp) before).1.check false "login:a"
        rateLoginPerIp 1).2 =
        .error 12000 ∧
      (((RateLimiter.new 0).run (fun _ => rateLoginPerIp)
        (before ++ (1, .check "login:a" false) :: between)).1.check
        false "login:a" rateLoginPerIp 13).2 = .ok () := by
  have hops : InOrder 0 (List.replicate 5 ((1 : ℚ), Op.check "login:a" false) ++
      (1, .check "login:a" false) :: ([(2, .sweep)] ++ (13, .check "login:a" false) :: [])) := by
    unfold InOrder
    decide +kernel
  have hrefused : (((RateLimiter.new 0).run (fun _ => rateLoginPerIp)
      (List.replicate 5 ((1 : ℚ), Op.check "login:a" false))).1.check false "login:a" rateLoginPerIp
        1).2 =
        .error 12000 := by
    decide +kernel
  have huntouched : Untouched "login:a" [((2 : ℚ), Op.sweep)] := by
    intro moment op hmem
    cases List.mem_singleton.mp hmem
    exact ⟨fun _ => by simp, by simp⟩
  exact ⟨_, _, _, _, hops, rfl, hrefused,
    (forgetting_changes_nothing (fun _ => rateLoginPerIp) 0 _ hops).2.2
    "login:a" _ _ _ 1 13 false false 12000 rfl huntouched hrefused (by norm_num)⟩

end Linger.RateLimits
