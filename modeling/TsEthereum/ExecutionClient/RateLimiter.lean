-- SUMMARY: The rate limiter of the RPC server, over any calls and cleanups.
import TsEthereum.Base.TokenBuckets
import Mathlib.Algebra.Order.Floor.Ring
import Mathlib.Data.Rat.Floor
import Mathlib.Tactic.Positivity

/-!
# Rate limiter

`rpc/rate-limit/index.ts`. Tokens and rates are exact rational numbers, and what
`Date.now()` gives is a whole number of milliseconds. `requestsPerMinute` is stored
and never read, and is left out; so is `record`, which does nothing.
-/

open List Option Nat

structure TokenBucket where
  tokens : ℚ
  lastRefill : Nat

structure RateLimitOptions where
  requestsPerSecond : Option ℚ := none
  burstSize : Option ℚ := none
  perMethod : Option Bool := none
  whitelist : Option (List String) := none
  blacklist : Option (List String) := none

structure RateLimitResult where
  allowed : Bool
  retryAfter : Option Int := none
  remaining : Option Int := none
  deriving DecidableEq

structure RateLimiter where
  buckets : String → Option TokenBucket
  requestsPerSecond : ℚ
  burstSize : ℚ
  perMethod : Bool
  whitelist : List String
  blacklist : List String

namespace RateLimiter

/-- `new RateLimiter(options)`. -/
def new (options : RateLimitOptions) : RateLimiter where
  buckets := fun _ => none
  requestsPerSecond := options.requestsPerSecond.getD 100
  burstSize := options.burstSize.getD 200
  perMethod := options.perMethod.getD false
  whitelist := options.whitelist.getD []
  blacklist := options.blacklist.getD []

/-- Milliseconds in seconds. -/
def seconds (ms : Nat) : ℚ := ms / 1000

/-- The tokens of a bucket, refilled. -/
def refilled (limiter : RateLimiter) (bucket : TokenBucket) (now : Nat) : ℚ :=
  let elapsedSeconds := seconds now - seconds bucket.lastRefill
  let tokensToAdd := elapsedSeconds * limiter.requestsPerSecond
  min limiter.burstSize (bucket.tokens + tokensToAdd)

/-- `getBucket`, where the clock is at `created`. -/
def getBucket (limiter : RateLimiter) (key : String) (created : Nat) : TokenBucket :=
  (limiter.buckets key).getD ⟨limiter.burstSize, created⟩

def setBucket (limiter : RateLimiter) (key : String) (bucket : TokenBucket) : RateLimiter :=
  { limiter with buckets := fun k => if k = key then some bucket else limiter.buckets k }

/-- The key of a request. The empty string is no method. -/
def keyOf (limiter : RateLimiter) (ip : String) (method : Option String) : String :=
  match method with
  | some method => if limiter.perMethod ∧ method ≠ "" then ip ++ ":" ++ method else ip
  | none => ip

/-- The part of `allows` behind the two lists. -/
def takeToken (limiter : RateLimiter) (key : String) (created now : Nat) :
    RateLimitResult × RateLimiter :=
  let tokens := limiter.refilled (limiter.getBucket key created) now
  if tokens ≥ 1 then
    ({ allowed := true, remaining := some ⌊tokens - 1⌋ }, limiter.setBucket key ⟨tokens - 1, now⟩)
  else
    let tokensNeeded := 1 - tokens
    ({ allowed := false, retryAfter := some ⌈tokensNeeded / limiter.requestsPerSecond⌉,
       remaining := some 0 },
      limiter.setBucket key ⟨tokens, now⟩)

/-- The clock is read once for a new bucket, and once for the refill. -/
def allows (limiter : RateLimiter) (ip : String) (method : Option String) (created now : Nat) :
    RateLimitResult × RateLimiter :=
  if limiter.whitelist.contains ip then ({ allowed := true }, limiter)
  else if limiter.blacklist.contains ip then
    ({ allowed := false, retryAfter := some 60, remaining := some 0 }, limiter)
  else limiter.takeToken (limiter.keyOf ip method) created now

/-- One hour. -/
def maxAge : Nat := 60 * 60 * 1000

def cleanup (limiter : RateLimiter) (now : Nat) : RateLimiter :=
  { limiter with buckets := fun key =>
      (limiter.buckets key).filter fun bucket => ¬((now : Int) - bucket.lastRefill > maxAge) }

/-! ## Runs -/

inductive Event where
  | allows (ip : String) (method : Option String) (created now : Nat)
  | cleanup (now : Nat)

/-- What the clock shows, in the order of the readings. -/
def Event.readings : Event → List Nat
  | allows _ _ created now => [created, now]
  | cleanup now => [now]

def Event.now : Event → Nat
  | allows _ _ _ now => now
  | cleanup now => now

def step (limiter : RateLimiter) : Event → Option RateLimitResult × RateLimiter
  | .allows ip method created now =>
    let (result, limiter) := limiter.allows ip method created now
    (some result, limiter)
  | .cleanup now => (none, limiter.cleanup now)

def run (limiter : RateLimiter) (events : List Event) : RateLimiter :=
  events.foldl (fun limiter event => (limiter.step event).2) limiter

/-- The key that a request is counted under, if it is on neither list. -/
def requestKey (limiter : RateLimiter) : Event → Option String
  | .allows ip method _ _ =>
    if ip ∈ limiter.whitelist ∨ ip ∈ limiter.blacklist then none else some (limiter.keyOf ip method)
  | .cleanup _ => none

/-- The event is a request under the key, and it is allowed. -/
def allowsUnder (limiter : RateLimiter) (key : String) (event : Event) : Bool :=
  limiter.requestKey event = some key && (limiter.step event).1.any (·.allowed)

/-- The number of requests under the key that are allowed from `start` to `stop`, in seconds. -/
def allowedIn (key : String) (start stop : ℚ) : RateLimiter → List Event → Nat
  | _, [] => 0
  | limiter, event :: events =>
    (if start ≤ seconds event.now ∧ seconds event.now ≤ stop then
      (limiter.allowsUnder key event).toNat else 0) +
      allowedIn key start stop (limiter.step event).2 events

/-- No more requests of a key than the burst and the rate allow, and a request that is repeated
when it was told to is allowed. -/
structure Limits (limiter : RateLimiter) (events : List Event) : Prop where
  bounded : ∀ (key : String) (start duration : ℚ), 0 ≤ duration →
    (allowedIn key start (start + duration) limiter events : ℚ) ≤
      limiter.burstSize + limiter.requestsPerSecond * duration
  retried : ∀ (front between rest : List Event) (request again : Event) (key : String)
    (result : RateLimitResult) (retryAfter : Int),
    events = front ++ request :: (between ++ again :: rest) →
    limiter.requestKey request = some key → limiter.requestKey again = some key →
    (∀ event ∈ between, limiter.requestKey event ≠ some key) →
    ((limiter.run front).step request).1 = some result → result.allowed = false →
    result.retryAfter = some retryAfter → seconds request.now + retryAfter ≤ seconds again.now →
    (limiter.run (front ++ request :: between)).allowsUnder key again = true

/-- A cleanup deletes none but full buckets. -/
def KeepsTokens (limiter : RateLimiter) : Event → Prop
  | .allows .. => True
  | .cleanup now => ∀ key bucket, limiter.buckets key = some bucket →
      (now : Int) - bucket.lastRefill > maxAge → limiter.refilled bucket now = limiter.burstSize

def CleansFull : RateLimiter → List Event → Prop
  | _, [] => True
  | limiter, event :: events =>
    limiter.KeepsTokens event ∧ CleansFull (limiter.step event).2 events

/-! ## Options -/

section Options

variable (limiter : RateLimiter) (event : Event)

theorem step_eq : ∃ buckets, (limiter.step event).2 = { limiter with buckets := buckets } := by
  cases event with
  | allows ip method created now =>
    simp only [step, allows]
    split
    · exact ⟨_, rfl⟩
    split
    · exact ⟨_, rfl⟩
    simp only [takeToken]
    split <;> exact ⟨_, rfl⟩
  | cleanup now => exact ⟨_, rfl⟩

@[simp] theorem step_requestsPerSecond :
    (limiter.step event).2.requestsPerSecond = limiter.requestsPerSecond := by
  obtain ⟨_, h⟩ := limiter.step_eq event
  rw [h]

@[simp] theorem step_burstSize : (limiter.step event).2.burstSize = limiter.burstSize := by
  obtain ⟨_, h⟩ := limiter.step_eq event
  rw [h]

@[simp] theorem step_requestKey : (limiter.step event).2.requestKey = limiter.requestKey := by
  obtain ⟨_, h⟩ := limiter.step_eq event
  rw [h]
  funext x
  cases x <;> rfl

end Options

/-! ## Tokens -/

/-- The tokens that a request under the key finds. -/
def available (limiter : RateLimiter) (key : String) (now : Nat) : ℚ :=
  match limiter.buckets key with
  | none => limiter.burstSize
  | some bucket => limiter.refilled bucket now

/-- What the limiter is built with, and what is true of its buckets at a time. -/
structure Sound (limiter : RateLimiter) (time : Nat) : Prop where
  rate : 0 < limiter.requestsPerSecond
  burst : 1 ≤ limiter.burstSize
  tokens : ∀ key bucket, limiter.buckets key = some bucket →
    0 ≤ bucket.tokens ∧ bucket.tokens ≤ limiter.burstSize ∧ bucket.lastRefill ≤ time

theorem seconds_le {a b : Nat} (h : a ≤ b) : seconds a ≤ seconds b :=
  div_le_div_of_nonneg_right (Nat.cast_le.mpr h) (by norm_num)

section Tokens

variable {limiter : RateLimiter} {time now created : Nat} {key : String} {bucket : TokenBucket}

theorem Sound.later (h : Sound limiter time) (hle : time ≤ now) : Sound limiter now where
  rate := h.rate
  burst := h.burst
  tokens := fun key bucket hb =>
    ⟨(h.tokens key bucket hb).1, (h.tokens key bucket hb).2.1, (h.tokens key bucket hb).2.2.trans hle⟩

theorem refilled_le : limiter.refilled bucket now ≤ limiter.burstSize := min_le_left _ _

theorem refilled_of_full (h : Sound limiter time) (hfull : bucket.tokens = limiter.burstSize)
    (hle : bucket.lastRefill ≤ now) : limiter.refilled bucket now = limiter.burstSize := by
  have hmore : 0 ≤ (seconds now - seconds bucket.lastRefill) * limiter.requestsPerSecond :=
    mul_nonneg (sub_nonneg.mpr (seconds_le hle)) h.rate.le
  unfold refilled
  rw [hfull]
  exact min_eq_left (le_add_of_nonneg_right hmore)

theorem tokens_le_refilled (h : Sound limiter time) (hb : limiter.buckets key = some bucket)
    (hle : time ≤ now) : bucket.tokens ≤ limiter.refilled bucket now := by
  obtain ⟨-, hburst, hlast⟩ := h.tokens key bucket hb
  have hmore : 0 ≤ (seconds now - seconds bucket.lastRefill) * limiter.requestsPerSecond :=
    mul_nonneg (sub_nonneg.mpr (seconds_le (hlast.trans hle))) h.rate.le
  exact le_min hburst (le_add_of_nonneg_right hmore)

theorem available_le : limiter.available key now ≤ limiter.burstSize := by
  unfold available
  split
  · exact le_rfl
  · exact refilled_le

section

variable (h : Sound limiter time)
include h

theorem available_nonneg (hle : time ≤ now) : 0 ≤ limiter.available key now := by
  unfold available
  split
  · exact zero_le_one.trans h.burst
  · next bucket hb => exact (h.tokens key bucket hb).1.trans (tokens_le_refilled h hb hle)

/-- Tokens come at the rate, up to the burst. -/
theorem available_later (hle : time ≤ now) : limiter.available key now ≤ min limiter.burstSize
      (limiter.available key time + limiter.requestsPerSecond * (seconds now - seconds time)) := by
  have hmore : 0 ≤ limiter.requestsPerSecond * (seconds now - seconds time) :=
    mul_nonneg h.rate.le (sub_nonneg.mpr (seconds_le hle))
  refine le_min available_le ?_
  unfold available
  split
  · exact le_add_of_nonneg_right hmore
  · next bucket _ =>
    rcases min_cases limiter.burstSize (bucket.tokens +
      (seconds time - seconds bucket.lastRefill) * limiter.requestsPerSecond) with
      ⟨hfull, -⟩ | ⟨hless, -⟩
    · have htime : limiter.refilled bucket time = limiter.burstSize := hfull
      rw [htime]
      exact refilled_le.trans (le_add_of_nonneg_right hmore)
    · have htime : limiter.refilled bucket time = bucket.tokens +
        (seconds time - seconds bucket.lastRefill) * limiter.requestsPerSecond := hless
      rw [htime]
      refine (min_le_right _ _).trans (le_of_eq ?_)
      ring

/-- A bucket that is made for the request is full. -/
theorem refilled_getBucket (hle : created ≤ now) :
    limiter.refilled (limiter.getBucket key created) now = limiter.available key now := by
  unfold getBucket available
  cases hb : limiter.buckets key with
  | none => exact refilled_of_full h rfl hle
  | some bucket => rfl

end

theorem available_setBucket {tokens : ℚ} (htokens : tokens ≤ limiter.burstSize) :
    (limiter.setBucket key ⟨tokens, now⟩).available key now = tokens := by
  simp only [available, setBucket, if_true, refilled, sub_self, zero_mul, add_zero]
  exact min_eq_right htokens

theorem available_setBucket_ne {other : String} (hne : other ≠ key) :
    (limiter.setBucket key bucket).available other now = limiter.available other now := by
  simp only [available, setBucket, if_neg hne]
  rfl

theorem Sound.setBucket (h : Sound limiter now) {tokens : ℚ} (hpos : 0 ≤ tokens)
    (hle : tokens ≤ limiter.burstSize) : Sound (limiter.setBucket key ⟨tokens, now⟩) now where
  rate := h.rate
  burst := h.burst
  tokens := by
    intro other bucket hb
    simp only [RateLimiter.setBucket] at hb
    split at hb
    · cases hb
      exact ⟨hpos, hle, le_rfl⟩
    · exact h.tokens other bucket hb

/-- A request takes a token if it finds one, and only then it is allowed. -/
theorem takeToken_spec (h : Sound limiter now) (hle : created ≤ now) (key : String) :
    (limiter.takeToken key created now).1.allowed = decide (1 ≤ limiter.available key now) ∧
      (limiter.takeToken key created now).2 = limiter.setBucket key
        ⟨limiter.available key now - (decide (1 ≤ limiter.available key now)).toNat, now⟩ := by
  simp only [takeToken, refilled_getBucket h hle, ge_iff_le]
  split
  · next htoken => simp [htoken]
  · next hnone => simp [hnone]

end Tokens

/-! ## Steps -/

section Steps

variable {limiter : RateLimiter} {time : Nat} {key : String} {event : Event} {events : List Event}

/-- The readings of an event come one after the other. -/
def Event.Timely (time : Nat) (event : Event) : Prop :=
  (∀ reading ∈ event.readings, time ≤ reading) ∧ event.readings.Pairwise (· ≤ ·)

theorem Event.Timely.le_now (h : event.Timely time) : time ≤ event.now := by
  cases event with
  | allows ip method created now => exact h.1 now (mem_cons_of_mem _ mem_cons_self)
  | cleanup now => exact h.1 now mem_cons_self

/-- A request that is counted is one that asks for a token. -/
theorem step_of_requestKey (hkey : limiter.requestKey event = some key) :
    ∃ ip method created now, event = .allows ip method created now ∧
      limiter.step event = (some (limiter.takeToken key created now).1,
        (limiter.takeToken key created now).2) := by
  cases event with
  | cleanup now => exact nomatch hkey
  | allows ip method created now =>
    simp only [requestKey] at hkey
    split at hkey
    · exact nomatch hkey
    · next hlists =>
      obtain rfl := some.inj hkey
      obtain ⟨hwhite, hblack⟩ := not_or.mp hlists
      refine ⟨ip, method, created, now, rfl, ?_⟩
      simp only [step, allows]
      rw [if_neg (by simpa using hwhite), if_neg (by simpa using hblack)]

/-- A request on one of the lists leaves the buckets alone. -/
theorem step_of_listed {ip : String} {method : Option String} {created now : Nat}
    (hlists : ip ∈ limiter.whitelist ∨ ip ∈ limiter.blacklist) :
    (limiter.step (.allows ip method created now)).2 = limiter := by
  simp only [step, allows]
  split
  · rfl
  · next hwhite =>
    rw [if_pos (by simpa using hlists.resolve_left (by simpa using hwhite))]

theorem allowsUnder_of_ne (hkey : limiter.requestKey event ≠ some key) :
    limiter.allowsUnder key event = false := by
  simp [allowsUnder, hkey]

theorem Sound.cleanup {now : Nat} (h : Sound limiter now) : Sound (limiter.cleanup now) now where
  rate := h.rate
  burst := h.burst
  tokens := fun key bucket hb => h.tokens key bucket (eq_some_of_filter_eq_some hb)

/-- A cleanup that deletes none but full buckets takes and gives nothing. -/
theorem available_cleanup {now : Nat} (hkeeps : limiter.KeepsTokens (.cleanup now)) :
    (limiter.cleanup now).available key now = limiter.available key now := by
  simp only [available, RateLimiter.cleanup]
  cases hb : limiter.buckets key with
  | none => rfl
  | some bucket =>
    rw [filter_some]
    by_cases hold : (now : Int) - bucket.lastRefill > maxAge
    · rw [if_neg (by simp only [hold, not_true_eq_false, decide_false, Bool.false_eq_true,
        not_false_eq_true])]
      exact (hkeeps key bucket hb hold).symm
    · rw [if_pos (decide_eq_true hold)]
      rfl

/-- What a counted request makes of its bucket. -/
theorem step_counted (h : Sound limiter time) (htimely : event.Timely time)
    (hkey : limiter.requestKey event = some key) :
    ∃ tokens, 0 ≤ tokens ∧ tokens ≤ limiter.burstSize ∧
      tokens + (limiter.allowsUnder key event).toNat = limiter.available key event.now ∧
      limiter.allowsUnder key event = decide (1 ≤ limiter.available key event.now) ∧
      (limiter.step event).2 = limiter.setBucket key ⟨tokens, event.now⟩ := by
  obtain ⟨ip, method, created, now, rfl, hstep⟩ := step_of_requestKey hkey
  have hnow : Sound limiter now := h.later htimely.le_now
  obtain ⟨hallowed, hleft⟩ := takeToken_spec hnow (List.pairwise_pair.mp htimely.2) key
  have hcounted : limiter.allowsUnder key (.allows ip method created now) =
      decide (1 ≤ limiter.available key now) := by
    simp [allowsUnder, hkey, hstep, hallowed]
  refine ⟨_, ?_, ?_, ?_, hcounted, (congrArg Prod.snd hstep).trans hleft⟩
  · cases hd : decide (1 ≤ limiter.available key now) with
    | false => simpa using available_nonneg hnow le_rfl
    | true => simpa using of_decide_eq_true hd
  · exact (sub_le_self _ (cast_nonneg _)).trans available_le
  · rw [hcounted]
    exact sub_add_cancel _ _

/-- A request that is not counted leaves the buckets alone. -/
theorem step_uncounted {ip : String} {method : Option String} {created now : Nat}
    (hkey : limiter.requestKey (.allows ip method created now) = none) :
    (limiter.step (.allows ip method created now)).2 = limiter := by
  apply step_of_listed
  by_contra hnot
  simp [requestKey, hnot] at hkey

theorem Sound.step (h : Sound limiter time) (htimely : event.Timely time) :
    Sound (limiter.step event).2 event.now := by
  have hnow := h.later htimely.le_now
  cases hkey : limiter.requestKey event with
  | some own =>
    obtain ⟨tokens, hpos, hle, -, -, hstep⟩ := step_counted h htimely hkey
    rw [hstep]
    exact hnow.setBucket hpos hle
  | none =>
    cases event with
    | cleanup now => exact Sound.cleanup hnow
    | allows ip method created now =>
      rw [step_uncounted hkey]
      exact hnow

/-- The step lemma: an event takes as many tokens as it allows requests. -/
theorem step_available (h : Sound limiter time) (htimely : event.Timely time)
    (hkeeps : limiter.KeepsTokens event) (key : String) :
    (limiter.step event).2.available key event.now + (limiter.allowsUnder key event).toNat =
      limiter.available key event.now := by
  rcases eq_or_ne (limiter.requestKey event) (some key) with hkey | hkey
  · obtain ⟨tokens, -, hle, hspent, -, hstep⟩ := step_counted h htimely hkey
    rw [hstep, available_setBucket hle]
    exact hspent
  · rw [allowsUnder_of_ne hkey, Bool.toNat_false, cast_zero, add_zero]
    cases hother : limiter.requestKey event with
    | some own =>
      obtain ⟨tokens, -, -, -, -, hstep⟩ := step_counted h htimely hother
      rw [hstep]
      exact available_setBucket_ne fun heq => hkey (heq ▸ hother)
    | none =>
      cases event with
      | cleanup now => exact available_cleanup hkeeps
      | allows ip method created now => rw [step_uncounted hother]

end Steps

/-! ## Whole runs -/

/-- The clock never goes back. -/
def Timely (events : List Event) : Prop := (events.flatMap Event.readings).Pairwise (· ≤ ·)

instance (events : List Event) : Decidable (Timely events) :=
  inferInstanceAs (Decidable (List.Pairwise _ _))

section Runs

variable {limiter : RateLimiter} {time : Nat} {key : String} {event : Event} {events : List Event}

/-- The events are timely, and none is before `time`. -/
def TimelyFrom (time : Nat) (events : List Event) : Prop :=
  (time :: events.flatMap Event.readings).Pairwise (· ≤ ·)

theorem TimelyFrom.head (h : TimelyFrom time (event :: events)) : event.Timely time := by
  rw [TimelyFrom, flatMap_cons, pairwise_cons, pairwise_append] at h
  exact ⟨fun reading hr => h.1 reading (mem_append_left _ hr), h.2.1⟩

theorem Event.now_mem (event : Event) : event.now ∈ event.readings := by
  cases event with
  | allows ip method created now => exact mem_cons_of_mem _ mem_cons_self
  | cleanup now => exact mem_cons_self

theorem TimelyFrom.tail (h : TimelyFrom time (event :: events)) : TimelyFrom event.now events := by
  rw [TimelyFrom, flatMap_cons, pairwise_cons, pairwise_append] at h
  exact pairwise_cons.mpr ⟨fun reading hr => h.2.2.2 event.now event.now_mem reading hr, h.2.2.1⟩

theorem TimelyFrom.zero (h : Timely events) : TimelyFrom 0 events :=
  pairwise_cons.mpr ⟨fun reading _ => Nat.zero_le reading, h⟩

/-- The levels of a key in a run. -/
def readings (key : String) : RateLimiter → List Event → List (TokenBuckets.Reading ℚ)
  | _, [] => []
  | limiter, event :: events =>
    ⟨seconds event.now, (limiter.allowsUnder key event).toNat,
      (limiter.step event).2.available key event.now⟩ ::
      readings key (limiter.step event).2 events

theorem allowedIn_eq (start stop : ℚ) (limiter : RateLimiter) (events : List Event) :
    allowedIn key start stop limiter events =
      TokenBuckets.takenIn start stop (readings key limiter events) := by
  induction events generalizing limiter with
  | nil => rfl
  | cons event events ih => rw [allowedIn, ih, readings, TokenBuckets.takenIn]

/-- The run lemma: the levels are paced by the rate and the burst. -/
theorem paced (h : Sound limiter time) (htimely : TimelyFrom time events)
    (hclean : limiter.CleansFull events) (key : String) :
    TokenBuckets.Paced limiter.requestsPerSecond limiter.burstSize (seconds time)
      (limiter.available key time) (readings key limiter events) := by
  induction events generalizing limiter time with
  | nil => exact .nil
  | cons event events ih =>
    have hsound := h.step htimely.head
    have hrest := ih hsound htimely.tail hclean.2
    rw [step_requestsPerSecond, step_burstSize] at hrest
    refine .cons (seconds_le htimely.head.le_now) (available_nonneg hsound le_rfl) ?_ hrest
    rw [step_available h htimely.head hclean.1]
    exact available_later h htimely.head.le_now

theorem new_sound {options : RateLimitOptions} (hrate : 0 < options.requestsPerSecond.getD 100)
    (hburst : 1 ≤ options.burstSize.getD 200) : Sound (new options) 0 where
  rate := hrate
  burst := hburst
  tokens := fun _ _ hb => (nomatch hb)

theorem bounded_new {options : RateLimitOptions} (hrate : 0 < options.requestsPerSecond.getD 100)
    (hburst : 1 ≤ options.burstSize.getD 200) (htimely : Timely events)
    (hclean : (new options).CleansFull events) (key : String) (start : ℚ) {duration : ℚ}
    (hduration : 0 ≤ duration) : (allowedIn key start (start + duration) (new options) events : ℚ) ≤
      (new options).burstSize + (new options).requestsPerSecond * duration := by
  have hpaced := (paced (new_sound hrate hburst) (.zero htimely) hclean key).earlier
    hrate.le (min_le_right start (seconds 0))
  have hbound := hpaced.takenIn_le hrate.le (zero_le_one.trans hburst) (min_le_left _ _)
    (le_add_of_nonneg_right hduration)
  rw [← allowedIn_eq, add_sub_cancel_left] at hbound
  exact hbound

/-! ## Repeated requests -/

/-- A run keeps what the limiter is built with. -/
theorem run_requestKey (limiter : RateLimiter) (events : List Event) :
    (limiter.run events).requestKey = limiter.requestKey := by
  induction events generalizing limiter with
  | nil => rfl
  | cons event events ih => exact (ih _).trans (limiter.step_requestKey event)

theorem run_requestsPerSecond (limiter : RateLimiter) (events : List Event) :
    (limiter.run events).requestsPerSecond = limiter.requestsPerSecond := by
  induction events generalizing limiter with
  | nil => rfl
  | cons event events ih => exact (ih _).trans (limiter.step_requestsPerSecond event)

theorem run_append (limiter : RateLimiter) (front back : List Event) :
    limiter.run (front ++ back) = (limiter.run front).run back := foldl_append

/-- A limiter is sound in a run, and the events that are left are timely. -/
theorem Sound.run {front back : List Event} (h : Sound limiter time)
    (htimely : TimelyFrom time (front ++ back)) :
    ∃ now, Sound (limiter.run front) now ∧ TimelyFrom now back := by
  induction front generalizing limiter time with
  | nil => exact ⟨time, h, htimely⟩
  | cons event front ih => exact ih (h.step htimely.head) htimely.tail

/-- The bucket of the key is as it was left, or there is none any more. -/
def Waits (limiter : RateLimiter) (key : String) (bucket : TokenBucket) : Prop :=
  limiter.buckets key = none ∨ limiter.buckets key = some bucket

theorem Waits.step {bucket : TokenBucket} (hwaits : limiter.Waits key bucket)
    (h : Sound limiter time) (htimely : event.Timely time)
    (hkey : limiter.requestKey event ≠ some key) : (limiter.step event).2.Waits key bucket := by
  cases hother : limiter.requestKey event with
  | some own =>
    obtain ⟨tokens, -, -, -, -, hstep⟩ := step_counted h htimely hother
    have hne : key ≠ own := fun heq => hkey (heq ▸ hother)
    rw [hstep]
    simp only [Waits, setBucket, if_neg hne]
    exact hwaits
  | none =>
    cases event with
    | allows ip method created now =>
      rw [step_uncounted hother]
      exact hwaits
    | cleanup now =>
      change (limiter.cleanup now).Waits key bucket
      simp only [Waits, RateLimiter.cleanup]
      rcases hwaits with hb | hb <;> rw [hb]
      · exact .inl rfl
      · rw [filter_some]
        split
        · exact .inr rfl
        · exact .inl rfl

theorem Waits.run {bucket : TokenBucket} {between back : List Event}
    (hwaits : limiter.Waits key bucket) (h : Sound limiter time)
    (htimely : TimelyFrom time (between ++ back))
    (hkey : ∀ event ∈ between, limiter.requestKey event ≠ some key) :
    (limiter.run between).Waits key bucket := by
  induction between generalizing limiter time with
  | nil => exact hwaits
  | cons event between ih =>
    refine ih (hwaits.step h htimely.head (hkey event mem_cons_self)) (h.step htimely.head)
      htimely.tail fun later hlater => ?_
    rw [step_requestKey]
    exact hkey later (mem_cons_of_mem _ hlater)

/-- A request that waited for its token finds it. -/
theorem one_le_available {bucket : TokenBucket} {now : Nat} (hwaits : limiter.Waits key bucket)
    (h : Sound limiter now) (htoken : 1 ≤ limiter.refilled bucket now) :
    1 ≤ limiter.available key now := by
  unfold available
  rcases hwaits with hb | hb <;> rw [hb]
  · exact h.burst
  · exact htoken

/-- What a rejected request leaves, and how long it is told to wait. -/
theorem step_rejected {result : RateLimitResult} {retryAfter : Int} (h : Sound limiter time)
    (htimely : event.Timely time) (hkey : limiter.requestKey event = some key)
    (hresult : (limiter.step event).1 = some result) (hrejected : result.allowed = false)
    (hretry : result.retryAfter = some retryAfter) :
    ∃ tokens, (limiter.step event).2.buckets key = some ⟨tokens, event.now⟩ ∧
      1 ≤ tokens + retryAfter * limiter.requestsPerSecond := by
  obtain ⟨ip, method, created, now, rfl, hstep⟩ := step_of_requestKey hkey
  have hnow : Sound limiter now := h.later htimely.le_now
  rw [hstep] at hresult ⊢
  obtain rfl := some.inj hresult
  simp only [takeToken, refilled_getBucket hnow (List.pairwise_pair.mp htimely.2)] at hrejected hretry ⊢
  split at hrejected
  · exact nomatch hrejected
  next hnone =>
  rw [if_neg hnone] at hretry ⊢
  obtain rfl := some.inj hretry
  refine ⟨limiter.available key now, by simp [setBucket, Event.now], ?_⟩
  have hceil := Int.le_ceil ((1 - limiter.available key now) / limiter.requestsPerSecond)
  have hneeded := (div_le_iff₀ h.rate).mp hceil
  linarith

theorem retried_new {options : RateLimitOptions} (hrate : 0 < options.requestsPerSecond.getD 100)
    (hburst : 1 ≤ options.burstSize.getD 200) {front between rest : List Event}
    {request again : Event} {result : RateLimitResult} {retryAfter : Int}
    (htimely : Timely (front ++ request :: (between ++ again :: rest)))
    (hkey : (new options).requestKey request = some key)
    (hagain : (new options).requestKey again = some key)
    (hbetween : ∀ event ∈ between, (new options).requestKey event ≠ some key)
    (hresult : (((new options).run front).step request).1 = some result)
    (hrejected : result.allowed = false) (hretry : result.retryAfter = some retryAfter)
    (hlater : seconds request.now + retryAfter ≤ seconds again.now) :
    ((new options).run (front ++ request :: between)).allowsUnder key again = true := by
  obtain ⟨time, hsound, hfrom⟩ := (new_sound hrate hburst).run (.zero htimely)
  rw [← run_requestKey _ front] at hkey hagain hbetween
  obtain ⟨tokens, hbucket, henough⟩ := step_rejected hsound hfrom.head hkey hresult hrejected hretry
  have hleft := hsound.step hfrom.head
  rw [← step_requestKey _ request] at hagain hbetween
  have hwaits := Waits.run (.inr hbucket) hleft hfrom.tail hbetween
  obtain ⟨time', hsound', hfrom'⟩ := hleft.run hfrom.tail
  rw [← run_requestKey _ between] at hagain
  have hrun : (new options).run (front ++ request :: between) =
      ((((new options).run front).step request).2).run between := run_append _ _ _
  rw [hrun]
  obtain ⟨-, -, -, -, hallowed, -⟩ := step_counted hsound' hfrom'.head hagain
  rw [hallowed, decide_eq_true_iff]
  refine one_le_available hwaits (hsound'.later hfrom'.head.le_now) (le_min ?_ ?_)
  · exact hsound'.burst
  · have hwaited : (retryAfter : ℚ) ≤ seconds again.now - seconds request.now :=
      le_sub_iff_add_le'.mpr hlater
    rw [run_requestsPerSecond] at henough
    rw [run_requestsPerSecond, step_requestsPerSecond, run_requestsPerSecond]
    exact henough.trans (add_le_add_right (mul_le_mul_of_nonneg_right hwaited hrate.le) _)

/-! ## Limits -/

/-- An hour refills a bucket, if the burst is no more than the rate gives in it. -/
theorem keepsTokens_of_burst_le (h : Sound limiter time)
    (hburst : limiter.burstSize ≤ seconds (maxAge + 1) * limiter.requestsPerSecond) :
    limiter.KeepsTokens event := by
  cases event with
  | allows ip method created now => trivial
  | cleanup now =>
    intro key bucket hb hold
    have hlast : bucket.lastRefill + (maxAge + 1) ≤ now := by omega
    have hidle : seconds (maxAge + 1) ≤ seconds now - seconds bucket.lastRefill := by
      apply le_sub_iff_add_le'.mpr
      refine le_trans (le_of_eq ?_) (seconds_le hlast)
      simp only [seconds, cast_add, add_div]
    refine min_eq_left (hburst.trans ?_)
    exact (mul_le_mul_of_nonneg_right hidle h.rate.le).trans
      (le_add_of_nonneg_left (h.tokens key bucket hb).1)

theorem cleansFull_of_burst_le (h : Sound limiter time) (htimely : TimelyFrom time events)
    (hburst : limiter.burstSize ≤ seconds (maxAge + 1) * limiter.requestsPerSecond) :
    limiter.CleansFull events := by
  induction events generalizing limiter time with
  | nil => trivial
  | cons event events ih =>
    refine ⟨keepsTokens_of_burst_le h hburst, ih (h.step htimely.head) htimely.tail ?_⟩
    rw [step_burstSize, step_requestsPerSecond]
    exact hburst

theorem limits_of_cleansFull (options : RateLimitOptions)
    (hrate : 0 < options.requestsPerSecond.getD 100) (hburst : 1 ≤ options.burstSize.getD 200)
    (events : List Event) (htimely : Timely events) (hclean : (new options).CleansFull events) :
    Limits (new options) events where
  bounded := fun key start duration hduration =>
    bounded_new hrate hburst htimely hclean key start hduration
  retried := by
    intro front between rest request again key result retryAfter hevents hkey hagain hbetween
      hresult hrejected hretry hlater
    exact retried_new hrate hburst (hevents ▸ htimely) hkey hagain hbetween hresult hrejected hretry
      hlater

end Runs

/-! ## Sample runs -/

namespace Sample

def request (now : Nat) : Event := .allows "10.0.0.1" none now now

/-- A token in ten thousand seconds. -/
def slow : RateLimitOptions := { requestsPerSecond := some (1 / 10000), burstSize := some 2 }

/-- Two bursts, and a cleanup between them. -/
def bursts : List Event :=
  [request 0, request 0, .cleanup 3600001, request 3600001, request 3600001]

/-- The default options, where an hour gives far more than the burst. -/
theorem default_limits : Limits (new {}) bursts :=
  limits_of_cleansFull {} (by decide +kernel) (by decide +kernel) bursts (by decide)
    (cleansFull_of_burst_le (new_sound (by decide +kernel) (by decide +kernel))
      (.zero (by decide)) (by decide +kernel))

/-- Four requests in an hour, which gives less than half a token. -/
theorem slow_unlimited : Timely bursts ∧ ¬Limits (new slow) bursts := by
  refine ⟨by decide, fun h => ?_⟩
  have hbound := h.bounded "10.0.0.1" 0 (3600001 / 1000) (by norm_num)
  have hcount : allowedIn "10.0.0.1" 0 (0 + 3600001 / 1000) (new slow) bursts = 4 := by
    decide +kernel
  rw [hcount] at hbound
  norm_num [new, slow] at hbound

end Sample

end RateLimiter
