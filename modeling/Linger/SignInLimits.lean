import Linger.Addresses
import Linger.RateLimitsRuns

/-! The allowance for signing in, at the two doors that take from it. -/
namespace Linger.SignInLimits
open Addresses RateLimits TokenBucket
open Names (Text)

/-- `POST /auth/login` and `POST /auth/sign-in-link`. -/
inductive Door
  | login
  | useLink
deriving DecidableEq

/-- A request as the limit sees it: the connection's peer, and the `X-Forwarded-For` lines. -/
structure Request where
  door : Door
  peer : Option IpAddr
  forwarded : List Text
deriving DecidableEq

def Request.ip (request : Request) (trusted : TrustedProxies) : Text :=
  clientIp request.peer request.forwarded trusted

/-- The network a request comes from. -/
def Request.network (request : Request) (trusted : TrustedProxies) : Text :=
  addressKey (request.ip trusted)

/-- The key each door takes its token under. -/
def Request.key (request : Request) (trusted : TrustedProxies) : String :=
  match request.door with
  | .login => String.ofList ("login:".toList ++ addressKey (request.ip trusted))
  | .useLink => String.ofList ("login:".toList ++ request.ip trusted)

/-- What is asked of the limiter: a request's check, or a sweep another check brings. -/
inductive Ask
  | request (request : Request) (missed : Bool)
  | sweep
deriving DecidableEq

def Ask.op (trusted : TrustedProxies) : Ask → Op
  | .request asked missed => .check (asked.key trusted) missed
  | .sweep => .sweep

/-- Every request with its answer, in order. -/
def answers (trusted : TrustedProxies) (limiter : RateLimiter) :
    List (ℚ × Ask) → List (ℚ × Request × Except ℕ Unit)
  | [] => []
  | (now, .request request missed) :: asks =>
    let (limiter, answer) := limiter.check missed (request.key trusted) rateLoginPerIp now
    (now, request, answer) :: answers trusted limiter asks
  | (now, .sweep) :: asks => answers trusted (limiter.forgetRefilled now) asks

/-- The moments requests of a network were let past. -/
def letPast (trusted : TrustedProxies) (network : Text)
    (answers : List (ℚ × Request × Except ℕ Unit)) : List ℚ :=
  answers.filterMap fun (now, request, answer) =>
    match answer with
    | .ok _ => if request.network trusted = network then some now else none
    | .error _ => none

/-- The requests of one network count under one key. -/
def OneKey (trusted : TrustedProxies) (asks : List (ℚ × Ask)) : Prop :=
  ∀ now request missed, (now, .request request missed) ∈ asks → ∀ now' request' missed',
    (now', .request request' missed') ∈ asks → request.network trusted = request'.network trusted →
      request.key trusted = request'.key trusted

/-- The same asked, but for the lines a stranger sends. -/
def SameBut (trusted : TrustedProxies) : Ask → Ask → Prop
  | .request request missed, .request request' missed' =>
    missed = missed' ∧ request.door = request'.door ∧ request.peer = request'.peer ∧
      ((∃ peer ∈ request.peer, trusts trusted peer.toCanonical = true) →
        request.forwarded = request'.forwarded)
  | .sweep, .sweep => True
  | _, _ => False

section Bound
variable {trusted : TrustedProxies} {limiter : RateLimiter} {asks : List (ℚ × Ask)} {network : Text}
  {key : String}

/-- What the limiter notes of the requests is their answers. -/
theorem run_answers (limiter : RateLimiter) (asks : List (ℚ × Ask)) :
    (limiter.run (fun _ => rateLoginPerIp) (asks.map fun ask => (ask.1, ask.2.op trusted))).2 =
      (answers trusted limiter asks).map fun (now, request, answer) =>
        .answered (request.key trusted) now answer := by
  induction asks generalizing limiter with
  | nil => rfl
  | cons first asks ih =>
    obtain ⟨now, ask⟩ := first
    cases ask with
    | request request missed =>
      let checked := limiter.check missed (request.key trusted) rateLoginPerIp now
      exact congrArg (Entry.answered (request.key trusted) now checked.2 :: ·) (ih checked.1)
    | sweep => exact ih (limiter.forgetRefilled now)

theorem mem_answers {entry : ℚ × Request × Except ℕ Unit}
    (h : entry ∈ answers trusted limiter asks) :
    ∃ missed, (entry.1, .request entry.2.1 missed) ∈ asks := by
  induction asks generalizing limiter with
  | nil => exact absurd h List.not_mem_nil
  | cons first asks ih =>
    obtain ⟨now, ask⟩ := first
    cases ask with
    | request request missed =>
      rcases List.mem_cons.mp h with heq | hrest
      · rw [heq]
        exact ⟨missed, List.mem_cons_self⟩
      · obtain ⟨missed', hmem⟩ := ih hrest
        exact ⟨missed', List.mem_cons_of_mem _ hmem⟩
    | sweep =>
      obtain ⟨missed', hmem⟩ := ih h
      exact ⟨missed', List.mem_cons_of_mem _ hmem⟩

/-- Where a network's requests count under one key, those let past are among the key's. -/
theorem letPast_le_kept (start finish : ℚ) {entries : List (ℚ × Request × Except ℕ Unit)}
    (h : ∀ entry ∈ entries, entry.2.1.network trusted = network → entry.2.1.key trusted = key)
    (kept : List ℚ) :
    within start finish kept + within start finish (letPast trusted network entries) ≤
      within start finish (keptOf key kept
        (entries.map fun (now, request, answer) =>
          .answered (request.key trusted) now answer)) := by
  induction entries generalizing kept with
  | nil => exact le_rfl
  | cons first entries ih =>
    obtain ⟨now, request, answer⟩ := first
    have hrest := fun kept => ih (fun entry hentry => h entry (List.mem_cons_of_mem _ hentry)) kept
    cases answer with
    | error wait => exact hrest kept
    | ok allowed =>
      rw [List.map_cons]
      simp only [keptOf]
      have hcons : ∀ moments : List ℚ,
          within start finish moments ≤ within start finish (now :: moments) := by
        intro moments
        exact (List.sublist_cons_self now moments).countP_le
      by_cases hnetwork : request.network trusted = network
      · have hkey := h (now, request, .ok allowed) List.mem_cons_self hnetwork
        have hpast : letPast trusted network ((now, request, .ok allowed) :: entries) =
            now :: letPast trusted network entries := by
          simp [letPast, hnetwork]
        rw [if_pos hkey, hpast]
        refine le_trans ?_ (hrest (now :: kept))
        simp only [within, List.countP_cons]
        omega
      · have hpast : letPast trusted network ((now, request, .ok allowed) :: entries) =
            letPast trusted network entries := by
          simp [letPast, hnetwork]
        rw [hpast]
        split
        · refine le_trans ?_ (hrest (now :: kept))
          exact Nat.add_le_add_right (hcons kept) _
        · exact hrest kept

theorem key_sameBut {request request' : Request} {missed missed' : Bool}
    (h : SameBut trusted (.request request missed) (.request request' missed')) :
    request.key trusted = request'.key trusted := by
  obtain ⟨-, hdoor, hpeer, hforwarded⟩ := h
  have hip : request.ip trusted = request'.ip trusted := by
    rw [Request.ip, Request.ip, ← hpeer]
    cases hof : request.peer with
    | none => rfl
    | some peer =>
      by_cases htrusts : trusts trusted peer.toCanonical = true
      · rw [hforwarded ⟨peer, by rw [hof]; rfl, htrusts⟩]
      · have hstranger := Bool.eq_false_iff.mpr htrusts
        rw [clientIp_untrusted hstranger, clientIp_untrusted hstranger]
  rw [Request.key, Request.key, hdoor, hip]

/-- What a stranger sends along changes no answer. -/
theorem answers_sameBut {asks asks' : List (ℚ × Ask)}
    (h : List.Forall₂ (fun ask ask' => ask.1 = ask'.1 ∧ SameBut trusted ask.2 ask'.2) asks asks') :
    (answers trusted limiter asks).map (fun entry => (entry.1, entry.2.2)) =
      (answers trusted limiter asks').map (fun entry => (entry.1, entry.2.2)) := by
  induction h generalizing limiter with
  | nil => rfl
  | @cons ask ask' asks asks' hsame _ ih =>
    obtain ⟨now, ask⟩ := ask
    obtain ⟨now', ask'⟩ := ask'
    obtain ⟨hnow, hsame⟩ := hsame
    simp only at hnow hsame
    subst hnow
    cases ask with
    | sweep =>
      cases ask' with
      | sweep => exact ih
      | request request' missed' => exact absurd hsame (by simp [SameBut])
    | request request missed =>
      cases ask' with
      | sweep => exact absurd hsame (by simp [SameBut])
      | request request' missed' =>
        have hkey := key_sameBut hsame
        have hmissed : missed = missed' := hsame.1
        simp only [answers, List.map_cons, ← hkey, ← hmissed]
        rw [ih]

/-- Links used from addresses that are their own key take from the network's one allowance. -/
theorem oneKey_of_own
    (h : ∀ now request missed, (now, .request request missed) ∈ asks → request.door = .useLink →
    addressKey (request.ip trusted) = request.ip trusted) : OneKey trusted asks := by
  have hkey : ∀ now request missed, (now, Ask.request request missed) ∈ asks →
      request.key trusted = String.ofList ("login:".toList ++ request.network trusted) := by
    intro now request missed hmem
    rw [Request.key, Request.network]
    cases hdoor : request.door with
    | login => rfl
    | useLink => rw [h now request missed hmem hdoor]
  intro now request missed hmem now' request' missed' hmem' hnetwork
  rw [hkey now request missed hmem, hkey now' request' missed' hmem', hnetwork]

/-- A link used from an IPv4 address is: the condition fails only where links are used from IPv6
addresses. -/
theorem oneKey_of_v4
    (h : ∀ now request missed, (now, .request request missed) ∈ asks → request.door = .useLink →
    ∃ bits, request.ip trusted = writeV4 bits) : OneKey trusted asks := by
  apply oneKey_of_own
  intro now request missed hmem hdoor
  obtain ⟨bits, hip⟩ := h now request missed hmem hdoor
  rw [hip, addressKey_writeV4]

end Bound

/-- Where the requests of each network count under one key, a network is let past no more often in a
stretch of time than its one allowance gives; and what a stranger's lines say never matters. -/
theorem one_allowance (trusted : TrustedProxies) (born : ℚ) (asks : List (ℚ × Ask))
    (horder : InOrder born (asks.map fun ask => (ask.1, ask.2.op trusted))) :
    (OneKey trusted asks → ∀ (network : Text) (start length : ℚ), 0 ≤ length →
      (within start (start + length)
        (letPast trusted network (answers trusted (RateLimiter.new born) asks)) : ℚ) ≤
        5 + length * 5 / 60) ∧
    ∀ asks',
      List.Forall₂ (fun ask ask' => ask.1 = ask'.1 ∧ SameBut trusted ask.2 ask'.2) asks asks' →
      (answers trusted (RateLimiter.new born) asks').map (fun entry => (entry.1, entry.2.2)) =
        (answers trusted (RateLimiter.new born) asks).map (fun entry => (entry.1, entry.2.2)) := by
  refine ⟨fun hkey network start length hlength => ?_,
    fun asks' hsame => (answers_sameBut hsame).symm⟩
  have hflow : 0 ≤ length * 5 / 60 := by positivity
  by_cases hany :
    ∃ entry ∈ answers trusted (RateLimiter.new born) asks, entry.2.1.network trusted = network
  · obtain ⟨entry, hentry, hnetwork⟩ := hany
    obtain ⟨missed, hmem⟩ := mem_answers hentry
    have hone :
        ∀ other ∈ answers trusted (RateLimiter.new born) asks, other.2.1.network trusted = network →
        other.2.1.key trusted = entry.2.1.key trusted := by
      intro other hother hsame
      obtain ⟨missed', hmem'⟩ := mem_answers hother
      exact hkey _ _ _ hmem' _ _ _ hmem (hsame.trans hnetwork.symm)
    have hkept := letPast_le_kept start (start + length) hone []
    rw [← run_answers] at hkept
    have hbound :=
      kept_within (fun _ => rateLoginPerIp) horder (entry.2.1.key trusted) start hlength
    have hcount : (within start (start + length)
        (letPast trusted network (answers trusted (RateLimiter.new born) asks)) : ℚ) ≤
        within start (start + length) (keptOf (entry.2.1.key trusted) []
          ((RateLimiter.new born).run (fun _ => rateLoginPerIp)
            (asks.map fun ask => (ask.1, ask.2.op trusted))).2) := by
      exact_mod_cast (Nat.le_add_left _ _).trans hkept
    calc _ ≤ _ := hcount
      _ ≤ _ := hbound
      _ = 5 + length * 5 / 60 := by norm_num [rateLoginPerIp]
  · have hnone : letPast trusted network (answers trusted (RateLimiter.new born) asks) = [] := by
      rw [letPast, List.filterMap_eq_nil_iff]
      intro entry hentry
      have hnot : entry.2.1.network trusted ≠ network :=
        fun hnetwork => hany ⟨entry, hentry, hnetwork⟩
      obtain ⟨now, request, answer⟩ := entry
      cases answer with
      | ok allowed => exact if_neg hnot
      | error wait => rfl
    rw [hnone, show within start (start + length) ([] : List ℚ) = 0 from rfl, Nat.cast_zero]
    linarith only [hflow]

/-- An address of somebody's /64. -/
def home (last : ℕ) : IpAddr := .v6 (ofSegments [0x2001, 0xdb8, 1, 2, 0, 0, 0, last])

/-- A sign-in link tried six times from a house's addresses, each its own. -/
def stepping : List (ℚ × Ask) :=
  (List.range 6).map fun last => ((1 : ℚ), .request ⟨.useLink, some (home (last + 1)), []⟩ false)

theorem one_allowance_stepped : ¬ ∀ (network : Text) (start length : ℚ), 0 ≤ length →
    (within start (start + length)
      (letPast [.privateNet] network (answers [.privateNet] (RateLimiter.new 0) stepping)) : ℚ) ≤
      5 + length * 5 / 60 := by
  intro hclaim
  have hsix : within (1 : ℚ) (1 + 0) (letPast [.privateNet] "2001:db8:1:2::/64".toList
      (answers [.privateNet] (RateLimiter.new 0) stepping)) = 6 := by decide +kernel
  have hfive := hclaim "2001:db8:1:2::/64".toList 1 0 le_rfl
  rw [hsix] at hfive
  norm_num at hfive

/-- Signing in from a house's addresses and from an address behind a proxy, and a link from the
latter. -/
def signingIn : List (ℚ × Ask) :=
  [(1, .request ⟨.login, some (home 1), ["10.0.0.1".toList]⟩ false),
    (1, .request ⟨.login, some (home 2), []⟩ true), (2, .sweep), (3, .request ⟨.useLink,
      some (.v4 (ofOctets [10, 0, 0, 2])), ["1.1.1.1, 203.0.113.7".toList]⟩ false),
    (4, .request ⟨.login, some (.v4 (ofOctets [10, 0, 0, 2])), ["203.0.113.7".toList]⟩ false)]

theorem one_allowance_signing_in :
    (∀ (network : Text) (start length : ℚ), 0 ≤ length →
      (within start (start + length) (letPast [.privateNet] network
        (answers [.privateNet] (RateLimiter.new 0) signingIn)) : ℚ) ≤ 5 + length * 5 / 60) ∧
    ∀ asks', List.Forall₂ (fun ask ask' => ask.1 = ask'.1 ∧
      SameBut [.privateNet] ask.2 ask'.2) signingIn asks' →
      (answers [.privateNet] (RateLimiter.new 0) asks').map (fun entry => (entry.1, entry.2.2)) =
        (answers [.privateNet] (RateLimiter.new 0) signingIn).map
          (fun entry => (entry.1, entry.2.2)) := by
  have horder : InOrder 0 (signingIn.map fun ask => (ask.1, ask.2.op [.privateNet])) := by
    unfold InOrder
    decide +kernel
  have hkey : OneKey [.privateNet] signingIn := by
    apply oneKey_of_v4
    intro now request missed hmem hdoor
    simp only [signingIn, List.mem_cons, Prod.mk.injEq, Ask.request.injEq, List.not_mem_nil,
      or_false] at hmem
    refine ⟨ofOctets [203, 0, 113, 7], ?_⟩
    rcases hmem with ⟨-, rfl, -⟩ | ⟨-, rfl, -⟩ | ⟨-, hsweep⟩ | ⟨-, rfl, -⟩ | ⟨-, rfl, -⟩
    · cases hdoor
    · cases hdoor
    · cases hsweep
    · decide +kernel
    · cases hdoor
  obtain ⟨hbound, hstranger⟩ := one_allowance [.privateNet] 0 signingIn horder
  exact ⟨hbound hkey, hstranger⟩

end Linger.SignInLimits
