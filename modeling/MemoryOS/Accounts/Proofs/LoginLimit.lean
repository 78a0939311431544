/-
When password guessing is bounded.

# The result

`guessing_bounded`: in every run that lets a request in only while the
failures of its client within the window and its requests still being
checked are together fewer than the limit, and that tells a client how long
to wait only once fewer failures than the limit are younger than the window
less a second, no window without a sign-in holds more failed checks than the
limit, whoever is refused has that many failures in the window ending then,
and whoever waits as told is not refused for what was recorded before.

The failures of a client since its last sign-in (`standing`) are what the
limiter's deque is a suffix of: what was dropped is older than the window,
and stays so (`Tracks`).
-/
import Mathlib.Data.List.Induction
import Mathlib.Data.List.Pairwise
import Mathlib.Data.List.TakeWhile
import Mathlib.Tactic.Linarith
import MemoryOS.Accounts.LoginLimit

namespace MemoryOS

open Lib

namespace Accounts

-- ====== statement vocabulary

/-- When something happened. -/
def AuthEvent.time : AuthEvent → ℚ
  | .checkFailed _ moment => moment
  | .taken _ moment => moment
  | .signedIn _ moment => moment
  | .refused _ _ announcedAt _ => announcedAt

/-- A failed password check of a client. -/
def guessOf (key : String) : AuthEvent → Option ℚ
  | .checkFailed k moment => if k = key then some moment else none
  | _ => none

/-- A failure that is charged to a client. -/
def chargeOf (key : String) : AuthEvent → Option ℚ
  | .checkFailed k moment => if k = key then some moment else none
  | .taken k moment => if k = key then some moment else none
  | _ => none

/-- A sign-in of a client. -/
def signInOf (key : String) : AuthEvent → Option ℚ
  | .signedIn k moment => if k = key then some moment else none
  | _ => none

/-- What one event does to the failures that stand against a client. -/
def stand (key : String) (failures : List ℚ) (e : AuthEvent) : List ℚ :=
  if (signInOf key e).isSome then [] else failures ++ (chargeOf key e).toList

/-- The failures that stand against a client: those since its last sign-in,
oldest first. -/
def standing (key : String) (seen : List AuthEvent) : List ℚ :=
  seen.foldl (stand key) []

/-- Guessing is bounded, by what was seen so far. -/
structure Bounded (seen : List AuthEvent) : Prop where
  guesses : ∀ key start,
    (∀ t ∈ seen.filterMap (signInOf key),
      ¬ (start ≤ t ∧ t ≤ start + windowSeconds)) →
    (seen.filterMap (guessOf key)).countP (fun t =>
      decide (start ≤ t ∧ t ≤ start + windowSeconds)) ≤ maxAttempts
  refused : ∀ before key moment announcedAt wait after,
    seen = before ++ .refused key moment announcedAt wait :: after →
    maxAttempts ≤ (before.filterMap (chargeOf key)).countP fun t =>
      decide (moment - windowSeconds ≤ t ∧ t ≤ moment)
  /-- Whenever the client comes back after that wait, too few of the failures
  that stood then are within the window. -/
  announced : ∀ before key moment announcedAt (wait : Int) after,
    seen = before ++ .refused key moment announcedAt wait :: after →
    ∀ later, announcedAt + (wait : ℚ) ≤ later →
      ((standing key before).countP fun t =>
        decide (later - windowSeconds ≤ t)) < maxAttempts

/-- A request whose credentials are being checked. -/
def Request.isChecking (key : String) : Request → Bool
  | .checking _ k => decide (k = key)
  | _ => false

/-- The requests of a client that are being checked. -/
def Server.inFlight (s : Server) (key : String) : Nat :=
  s.requests.countP (Request.isChecking key)

/-- A request is let in while there is room for all that are being checked,
and told to wait when the failures in its way are in their last second. -/
def Careful (allowRegistration : Bool) (s : Server) : AuthStep → Prop
  | .arrive endpoint key now announcing =>
    ¬ (endpoint = .register ∧ allowRegistration = false) →
    ((s.limiter.window key now).length < maxAttempts →
      (s.limiter.window key now).length + s.inFlight key < maxAttempts)
    ∧ (maxAttempts ≤ (s.limiter.window key now).length →
      ((s.limiter.attempts key).countP fun t =>
        decide (announcing - t ≤ windowSeconds - 1)) < maxAttempts)
  | _ => True

instance decidableCareful (allowRegistration : Bool) (s : Server) :
    ∀ a, Decidable (Careful allowRegistration s a)
  | .arrive _ _ _ _ => inferInstanceAs (Decidable (_ → _ ∧ _))
  | .resolve _ _ _ => inferInstanceAs (Decidable True)
  | .stored _ _ _ => inferInstanceAs (Decidable True)

-- ======== standing

variable {key : String} {seen : List AuthEvent} {e : AuthEvent} {now : ℚ}
  {limiter : LoginRateLimiter}

variable {key : String} {i : Nat} {t now' : ℚ}

theorem standing_append (key : String) (seen : List AuthEvent)
    (e : AuthEvent) :
    standing key (seen ++ [e]) = stand key (standing key seen) e :=
  List.foldl_append ..

theorem standing_sublist (key : String) (seen : List AuthEvent) :
    (standing key seen).Sublist (seen.filterMap (chargeOf key)) := by
  induction seen using List.reverseRecOn with
  | nil => exact List.Sublist.refl _
  | append_singleton seen e ih =>
    rw [standing_append, List.filterMap_append]
    unfold stand
    split
    case isTrue => exact List.nil_sublist _
    case isFalse =>
      refine ih.append ?_
      cases h : chargeOf key e <;> simp [h]

theorem chargeOf_time (h : chargeOf key e = some t) : t = e.time := by
  cases e <;> simp only [chargeOf] at h <;> try cases h
  all_goals
    split at h
    case isTrue => exact (Option.some.inj h).symm
    case isFalse => cases h

theorem guessOf_time (h : guessOf key e = some t) : t = e.time := by
  cases e <;> simp only [guessOf] at h <;> try cases h
  split at h
  case isTrue => exact (Option.some.inj h).symm
  case isFalse => cases h

theorem signInOf_time (h : signInOf key e = some t) : t = e.time := by
  cases e <;> simp only [signInOf] at h <;> try cases h
  split at h
  case isTrue => exact (Option.some.inj h).symm
  case isFalse => cases h

/-- What was seen is in order, and not of the future. -/
structure Ordered (seen : List AuthEvent) (now : ℚ) : Prop where
  sorted : seen.Pairwise fun a b => a.time ≤ b.time
  past : ∀ e ∈ seen, e.time ≤ now

theorem Ordered.append (h : Ordered seen now) {now' : ℚ}
    (hlater : now ≤ e.time) (hpast : e.time ≤ now') :
    Ordered (seen ++ [e]) now' := by
  refine ⟨List.pairwise_append.2 ⟨h.sorted, List.pairwise_singleton _ _, ?_⟩,
    ?_⟩
  · intro a ha b hb
    rw [List.mem_singleton.1 hb]
    exact (h.past a ha).trans hlater
  · intro a ha
    rcases List.mem_append.1 ha with ha | ha
    · exact ((h.past a ha).trans hlater).trans hpast
    · rw [List.mem_singleton.1 ha]
      exact hpast

theorem Ordered.later (h : Ordered seen now) (hle : now ≤ now') :
    Ordered seen now' :=
  ⟨h.sorted, fun e he => (h.past e he).trans hle⟩

theorem Ordered.standing (h : Ordered seen now) (key : String) :
    (standing key seen).Pairwise (· ≤ ·) := by
  refine List.Pairwise.sublist (standing_sublist key seen) ?_
  refine List.Pairwise.filterMap _ (fun a b hab t ht u hu => ?_) h.sorted
  rw [chargeOf_time ht, chargeOf_time hu]
  exact hab

theorem Ordered.standing_past (h : Ordered seen now)
    (ht : t ∈ Accounts.standing key seen) : t ≤ now := by
  obtain ⟨e, he, hcharge⟩ :=
    List.mem_filterMap.1 ((standing_sublist key seen).subset ht)
  rw [chargeOf_time hcharge]
  exact h.past e he

theorem guesses_le {start : ℚ}
    (hsorted : seen.Pairwise fun a b => a.time ≤ b.time)
    (hfree : ∀ t ∈ seen.filterMap (signInOf key), t < start) (stop : ℚ) :
    (seen.filterMap (guessOf key)).countP (fun t =>
        decide (start ≤ t ∧ t ≤ stop))
      ≤ (standing key seen).countP fun t => decide (start ≤ t) := by
  induction seen using List.reverseRecOn with
  | nil => exact Nat.zero_le _
  | append_singleton seen e ih =>
    obtain ⟨hseen, -, hlast⟩ := List.pairwise_append.1 hsorted
    rw [List.filterMap_append] at hfree
    have ih := ih hseen fun t ht => hfree t (List.mem_append_left _ ht)
    rw [standing_append, List.filterMap_append, List.countP_append]
    unfold stand
    split
    case isTrue hsignIn =>
      -- a sign-in before the window: so is everything before it
      obtain ⟨t, ht⟩ := Option.isSome_iff_exists.1 hsignIn
      have hbefore : t < start := hfree t (List.mem_append_right _ (by
        simp [ht]))
      rw [signInOf_time ht] at hbefore
      have hnone : ∀ l : List ℚ, (∀ u ∈ l, u ≤ e.time) →
          l.countP (fun u => decide (start ≤ u ∧ u ≤ stop)) = 0 := by
        intro l hl
        refine List.countP_eq_zero.2 fun u hu => ?_
        have := hl u hu
        simp only [decide_eq_true_eq, not_and]
        intro hstart
        exact absurd (hstart.trans this) (not_le.2 hbefore)
      rw [hnone, hnone]
      · exact Nat.zero_le _
      · intro u hu
        obtain ⟨f, hf, hfu⟩ := List.mem_filterMap.1 hu
        rw [List.mem_singleton.1 hf] at hfu
        exact (guessOf_time hfu).le
      · intro u hu
        obtain ⟨f, hf, hfu⟩ := List.mem_filterMap.1 hu
        rw [guessOf_time hfu]
        exact hlast f hf e (List.mem_singleton_self _)
    case isFalse =>
      rw [List.countP_append]
      refine Nat.add_le_add ih ?_
      cases hguess : guessOf key e with
      | none => simp [hguess]
      | some t =>
        have hcharge : chargeOf key e = some t := by
          cases e <;> first | exact hguess | cases hguess
        rw [hcharge]
        simp only [hguess, List.filterMap_cons, List.filterMap_nil,
          Option.toList_some, List.countP_singleton, decide_eq_true_eq]
        split
        case isTrue hin => rw [if_pos hin.1]
        case isFalse => exact Nat.zero_le _

-- ====== the limiter

/-- The limiter keeps of what stands all that is within the window. -/
def Tracks (limiter : LoginRateLimiter) (seen : List AuthEvent) (now : ℚ) :
    Prop :=
  ∀ key, ∃ dropped, standing key seen = dropped ++ limiter.attempts key
    ∧ ∀ t ∈ dropped, windowSeconds < now - t

theorem Tracks.later (h : Tracks limiter seen now)
    (hle : now ≤ now') : Tracks limiter seen now' := by
  intro key
  obtain ⟨dropped, heq, hold⟩ := h key
  refine ⟨dropped, heq, fun t ht => ?_⟩
  have := hold t ht
  linarith

theorem Tracks.window (h : Tracks limiter seen now) (key : String) :
    ∃ dropped, standing key seen = dropped ++ limiter.window key now
      ∧ ∀ t ∈ dropped, windowSeconds < now - t := by
  obtain ⟨dropped, heq, hold⟩ := h key
  refine ⟨dropped ++ (limiter.attempts key).takeWhile fun t =>
    decide (windowSeconds < now - t), ?_, ?_⟩
  · unfold LoginRateLimiter.window
    rw [List.append_assoc, List.takeWhile_append_dropWhile]
    exact heq
  · intro t ht
    rcases List.mem_append.1 ht with ht | ht
    · exact hold t ht
    · have hdrop := List.mem_takeWhile_imp ht
      exact of_decide_eq_true hdrop

theorem Tracks.update (h : Tracks limiter seen now)
    {left : List ℚ} {seen' : List AuthEvent}
    (hother : ∀ k, k ≠ key → standing k seen' = standing k seen)
    (hkey : ∃ dropped, standing key seen' = dropped ++ left
      ∧ ∀ t ∈ dropped, windowSeconds < now - t) :
    Tracks ⟨Function.update limiter.attempts key left⟩ seen' now := by
  intro k
  by_cases hk : k = key
  · subst hk
    simp only [Function.update_self]
    exact hkey
  · simp only [Function.update_of_ne hk]
    rw [hother k hk]
    exact h k

theorem Tracks.prune (h : Tracks limiter seen now) (key : String) :
    Tracks (limiter.prune key now) seen now :=
  h.update (fun _ _ => rfl) (h.window key)

theorem Tracks.window_length (h : Tracks limiter seen now)
    (hseen : Ordered seen now) (key : String) :
    (limiter.window key now).length
      = (standing key seen).countP fun t =>
        decide (now - t ≤ windowSeconds) := by
  obtain ⟨dropped, heq, hold⟩ := h.window key
  have hsorted := hseen.standing key
  rw [heq] at hsorted ⊢
  have hdropped : dropped.countP (fun t => decide (now - t ≤ windowSeconds))
      = 0 := by
    refine List.countP_eq_zero.2 fun t ht => ?_
    rw [decide_eq_true_eq, not_le]
    exact hold t ht
  have hleft : ∀ t ∈ limiter.window key now, now - t ≤ windowSeconds := by
    have hwindow := (List.pairwise_append.1 hsorted).2.1
    unfold LoginRateLimiter.window at hwindow ⊢
    cases hleft : (limiter.attempts key).dropWhile fun t =>
        decide (windowSeconds < now - t) with
    | nil => exact fun t ht => absurd ht List.not_mem_nil
    | cons first rest =>
      rw [hleft] at hwindow
      have hfirst : ¬ windowSeconds < now - first := by
        have := List.head?_dropWhile_not (fun t =>
          decide (windowSeconds < now - t)) (limiter.attempts key)
        rw [hleft] at this
        simpa using this
      intro t ht
      rcases List.mem_cons.1 ht with rfl | ht
      · exact not_lt.1 hfirst
      · have := (List.pairwise_cons.1 hwindow).1 t ht
        linarith [not_lt.1 hfirst]
  rw [List.countP_append, hdropped, Nat.zero_add]
  exact (List.countP_eq_length.2 fun t ht => decide_eq_true (hleft t ht)).symm

-- ====== what was seen

/-- The failures of a client within the window. -/
def recent (key : String) (seen : List AuthEvent) (now : ℚ) : Nat :=
  (standing key seen).countP fun t => decide (now - t ≤ windowSeconds)

theorem recent_later (key : String) (seen : List AuthEvent)
    (hle : now ≤ now') : recent key seen now' ≤ recent key seen now := by
  refine List.countP_mono_left fun t _ ht => ?_
  simp only [decide_eq_true_eq] at ht ⊢
  linarith

theorem append_singleton_split {before after : List AuthEvent}
    {x : AuthEvent} (h : seen ++ [e] = before ++ x :: after) :
    (before = seen ∧ x = e) ∨ ∃ after', seen = before ++ x :: after' := by
  rcases List.eq_nil_or_concat after with rfl | ⟨after', y, rfl⟩
  · obtain ⟨hseen, hx⟩ := List.append_inj' h rfl
    exact .inl ⟨hseen.symm, (List.cons.inj hx).1.symm⟩
  · rw [List.concat_eq_append, ← List.cons_append, ← List.append_assoc] at h
    exact .inr ⟨after', (List.append_inj' h rfl).1⟩

theorem Bounded.append (h : Bounded seen)
    (hguess : ∀ key t, guessOf key e = some t → ∀ start,
      (∀ u ∈ seen.filterMap (signInOf key),
        ¬ (start ≤ u ∧ u ≤ start + windowSeconds)) →
      start ≤ t → t ≤ start + windowSeconds →
      (seen.filterMap (guessOf key)).countP (fun t =>
        decide (start ≤ t ∧ t ≤ start + windowSeconds)) < maxAttempts)
    (hrefused : ∀ key moment announcedAt wait,
      e = .refused key moment announcedAt wait →
      (maxAttempts ≤ (seen.filterMap (chargeOf key)).countP fun t =>
        decide (moment - windowSeconds ≤ t ∧ t ≤ moment))
      ∧ ∀ later, announcedAt + (wait : ℚ) ≤ later →
        ((standing key seen).countP fun t =>
          decide (later - windowSeconds ≤ t)) < maxAttempts) :
    Bounded (seen ++ [e]) := by
  refine ⟨?_, ?_, ?_⟩
  · intro key start hfree
    rw [List.filterMap_append] at hfree
    have hfree : ∀ u ∈ seen.filterMap (signInOf key),
        ¬ (start ≤ u ∧ u ≤ start + windowSeconds) :=
      fun u hu => hfree u (List.mem_append_left _ hu)
    rw [List.filterMap_append, List.countP_append]
    cases hg : guessOf key e with
    | none =>
      have hbound := h.guesses key start hfree
      simpa [hg] using hbound
    | some t =>
      simp only [List.filterMap_cons, hg, List.filterMap_nil,
        List.countP_singleton, decide_eq_true_eq]
      split
      case isTrue hin => exact hguess key t hg start hfree hin.1 hin.2
      case isFalse => exact h.guesses key start hfree
  · intro before key moment announcedAt wait after heq
    rcases append_singleton_split heq with ⟨rfl, hx⟩ | ⟨after', hseen⟩
    · exact (hrefused key moment announcedAt wait hx.symm).1
    · exact h.refused before key moment announcedAt wait after' hseen
  · intro before key moment announcedAt wait after heq
    rcases append_singleton_split heq with ⟨rfl, hx⟩ | ⟨after', hseen⟩
    · exact (hrefused key moment announcedAt wait hx.symm).2
    · exact h.announced before key moment announcedAt wait after' hseen

-- ====== the server

/-- What every careful run keeps: within the window, the failures and the
checks under way are no more than the limit. -/
structure Sound (s : Server) : Prop where
  ordered : Ordered s.seen s.now
  tracks : Tracks s.limiter s.seen s.now
  budget : ∀ key, recent key s.seen s.now + s.inFlight key ≤ maxAttempts
  bounded : Bounded s.seen

theorem inFlight_set {requests : List Request} {r q : Request}
    (hi : requests[i]? = some r) (key : String)
    (hq : q.isChecking key = false) :
    (requests.set i q).countP (Request.isChecking key)
        + (if r.isChecking key then 1 else 0)
      = requests.countP (Request.isChecking key) := by
  obtain ⟨hlt, hget⟩ := List.getElem?_eq_some_iff.1 hi
  rw [List.countP_set hlt, hget, hq]
  cases hr : r.isChecking key with
  | false => simp
  | true =>
    have hpos : 0 < requests.countP (Request.isChecking key) :=
      List.countP_pos_iff.2 ⟨r, List.mem_of_getElem? hi, hr⟩
    simp only [if_true, Bool.false_eq_true, if_false]
    omega

variable {s : Server}

theorem Sound.quiet (h : Sound s) {r r' : Request}
    (hi : s.requests[i]? = some r) (hr' : ∀ key, r'.isChecking key = false)
    (hnow : s.now ≤ now) :
    Sound { s with requests := s.requests.set i r', now := now } := by
  refine ⟨h.ordered.later hnow, h.tracks.later hnow, fun key => ?_, h.bounded⟩
  have hset := inFlight_set hi key (hr' key)
  have hrecent := recent_later key s.seen hnow
  have hbudget := h.budget key
  unfold Server.inFlight at hbudget ⊢
  simp only
  omega

theorem Sound.charge (h : Sound s) {endpoint : Endpoint} {reply : Reply} {event : AuthEvent}
    (hi : s.requests[i]? = some (.checking endpoint key))
    (hnow : s.now ≤ now)
    (hevent : event = .checkFailed key now ∨ event = .taken key now) :
    Sound (s.charge i reply key now event) := by
  have htime : event.time = now := by rcases hevent with rfl | rfl <;> rfl
  have hcharge : ∀ k, stand k (standing k s.seen) event
      = if key = k then standing k s.seen ++ [now] else standing k s.seen := by
    intro k
    unfold stand
    rcases hevent with rfl | rfl <;>
      · simp only [signInOf, chargeOf, Option.isSome_none, Bool.false_eq_true,
          if_false]
        split
        case isTrue => rfl
        case isFalse => exact List.append_nil _
  have htracks := h.tracks.later hnow
  have hset := fun k => inFlight_set hi k (q := .answered reply) rfl
  refine ⟨?_, ?_, ?_, ?_⟩
  · exact h.ordered.append (htime ▸ hnow) (le_of_eq htime)
  · refine htracks.update (fun k hk => ?_) ?_
    · show standing k (s.seen ++ [event]) = _
      rw [standing_append, hcharge, if_neg (Ne.symm hk)]
    · obtain ⟨dropped, heq, hold⟩ := htracks.window key
      refine ⟨dropped, ?_, hold⟩
      show standing key (s.seen ++ [event]) = _
      rw [standing_append, hcharge, if_pos rfl, heq, List.append_assoc]
  · intro k
    have hset := hset k
    have hrecent := recent_later k s.seen hnow
    have hbudget := h.budget k
    show recent k (s.seen ++ [event]) now + Server.inFlight _ k ≤ _
    unfold recent at hrecent hbudget ⊢
    rw [standing_append, hcharge]
    unfold Server.inFlight Server.charge at *
    by_cases hk : key = k
    · have hone : [now].countP (fun t => decide (now - t ≤ windowSeconds))
          ≤ 1 := List.countP_le_length
      have hchecking : Request.isChecking k (.checking endpoint key) = true :=
        decide_eq_true hk
      rw [if_pos hk, List.countP_append]
      rw [hchecking, if_pos rfl] at hset
      simp only
      omega
    · rw [if_neg hk]
      simp only
      omega
  · refine h.bounded.append ?_ ?_
    · intro k t ht start hfree hstart hstop
      have hk : key = k ∧ now = t := by
        rcases hevent with rfl | rfl
        · simp only [guessOf] at ht
          split at ht
          case isTrue hk => exact ⟨hk, Option.some.inj ht⟩
          case isFalse => cases ht
        · cases ht
      obtain ⟨rfl, rfl⟩ := hk
      -- no sign-in after the beginning of the window, up to now
      have hbefore : ∀ u ∈ s.seen.filterMap (signInOf key), u < start := by
        intro u hu
        obtain ⟨e, he, heu⟩ := List.mem_filterMap.1 hu
        have hpast := h.ordered.past e he
        rw [← signInOf_time heu] at hpast
        by_contra hle
        exact hfree u hu ⟨not_lt.1 hle, (hpast.trans hnow).trans hstop⟩
      have hle := guesses_le h.ordered.sorted hbefore (start + windowSeconds)
      have hwithin : (standing key s.seen).countP (fun t =>
          decide (start ≤ t)) ≤ recent key s.seen now := by
        refine List.countP_mono_left fun u _ hu => ?_
        simp only [decide_eq_true_eq] at hu ⊢
        linarith
      have hrecent := recent_later key s.seen hnow
      have hbudget := h.budget key
      have hset := hset key
      have hchecking : Request.isChecking key (.checking endpoint key) = true :=
        decide_eq_true rfl
      rw [hchecking, if_pos rfl] at hset
      unfold Server.inFlight at hbudget
      omega
    · intro k moment announcedAt wait hrefused
      rcases hevent with rfl | rfl <;> cases hrefused

theorem Sound.signIn (h : Sound s)
    (hi : s.requests[i]? = some (.signingIn key)) (hnow : s.now ≤ now) :
    Sound {
      limiter := s.limiter.clear key
      requests := s.requests.set i (.answered .ok)
      now := now
      seen := s.seen ++ [.signedIn key now] } := by
  have hstand : ∀ k, standing k (s.seen ++ [.signedIn key now])
      = if key = k then [] else standing k s.seen := by
    intro k
    rw [standing_append]
    by_cases hk : key = k <;> simp [stand, signInOf, chargeOf, hk]
  refine ⟨h.ordered.append hnow (le_refl _), ?_, fun k => ?_, ?_⟩
  · refine (h.tracks.later hnow).update (fun k hk => ?_) ⟨[], ?_, nofun⟩
    · rw [hstand, if_neg (Ne.symm hk)]
    · rw [hstand, if_pos rfl]
      rfl
  · have hset := inFlight_set hi k (q := .answered .ok) rfl
    have hrecent := recent_later k s.seen hnow
    have hbudget := h.budget k
    have hle : recent k (s.seen ++ [.signedIn key now]) now
        ≤ recent k s.seen now := by
      unfold recent
      rw [hstand]
      split
      case isTrue => exact Nat.zero_le _
      case isFalse => exact le_refl _
    unfold Server.inFlight at hbudget ⊢
    simp only
    omega
  · refine h.bounded.append (fun k t ht => ?_) (fun k m a w heq => ?_)
    · cases ht
    · cases heq

theorem Tracks.announced (h : Tracks limiter seen now) {announcing : ℚ}
    (hnow : now ≤ announcing)
    (hfew : ((limiter.attempts key).countP fun t =>
      decide (announcing - t ≤ windowSeconds - 1)) < maxAttempts)
    {later : ℚ} (hlater : announcing
      + (((limiter.prune key now).retryAfter key announcing).1 : ℚ) ≤ later) :
    ((standing key seen).countP fun t =>
      decide (later - windowSeconds ≤ t)) < maxAttempts := by
  obtain ⟨dropped, heq, hold⟩ := h key
  have htracks := ((h.prune key).later hnow).window key
  obtain ⟨dropped', heq', hold'⟩ := htracks
  unfold LoginRateLimiter.retryAfter at hlater
  simp only at hlater
  cases hwindow : (limiter.prune key now).window key announcing with
  | nil =>
    -- nothing stands that is within the window
    rw [hwindow, List.append_nil] at heq'
    rw [hwindow] at hlater
    have hnone : (standing key seen).countP (fun t =>
        decide (later - windowSeconds ≤ t)) = 0 := by
      refine List.countP_eq_zero.2 fun t ht => ?_
      rw [decide_eq_true_eq, not_le]
      have := hold' t (heq' ▸ ht)
      simp only [Int.cast_zero, add_zero] at hlater
      linarith
    rw [hnone]
    decide
  | cons oldest rest =>
    rw [hwindow] at hlater
    have hwait : (1 : ℚ) ≤ ((max 1 ⌊windowSeconds
        - (announcing - oldest)⌋ : Int) : ℚ) := by
      exact_mod_cast le_max_left _ _
    refine lt_of_le_of_lt ?_ hfew
    rw [heq, List.countP_append]
    have hdropped : dropped.countP (fun t =>
        decide (later - windowSeconds ≤ t)) = 0 := by
      refine List.countP_eq_zero.2 fun t ht => ?_
      rw [decide_eq_true_eq, not_le]
      have := hold t ht
      simp only at hlater
      linarith
    rw [hdropped, Nat.zero_add]
    refine List.countP_mono_left fun t _ ht => ?_
    simp only [decide_eq_true_eq] at ht hlater ⊢
    linarith

theorem Sound.arrive (h : Sound s) {allowRegistration : Bool}
    {endpoint : Endpoint} {announcing : ℚ}
    (hnow : s.now ≤ now) (hannouncing : now ≤ announcing)
    (hcareful : Careful allowRegistration s
      (.arrive endpoint key now announcing)) :
    Sound (s.arrive allowRegistration endpoint key now announcing) := by
  have htracks := h.tracks.later hnow
  have hordered := h.ordered.later hnow
  have hlength := htracks.window_length hordered key
  have happend : ∀ (r : Request) k, (s.requests ++ [r]).countP
      (Request.isChecking k) = s.inFlight k + if r.isChecking k then 1 else 0 := by
    intro r k
    rw [List.countP_append, List.countP_singleton]
    rfl
  unfold Server.arrive
  split
  case isTrue =>
    refine ⟨hordered, htracks, fun k => ?_, h.bounded⟩
    have hrecent := recent_later k s.seen hnow
    have hbudget := h.budget k
    show recent k s.seen now + List.countP _ _ ≤ _
    rw [happend]
    exact le_trans (Nat.add_le_add_right hrecent _) hbudget
  case isFalse hopen =>
    obtain ⟨hroom, hwait⟩ := hcareful hopen
    simp only [LoginRateLimiter.blocked, decide_eq_true_eq]
    split
    case isTrue hblocked =>
      refine ⟨?_, ?_, fun k => ?_, ?_⟩
      · exact h.ordered.append (hnow.trans hannouncing) (le_refl _)
      · refine ((htracks.prune key).later hannouncing).update (fun k _ => ?_) ?_
        · rw [standing_append]
          exact List.append_nil _
        · rw [standing_append]
          obtain ⟨dropped, heq, hold⟩ :=
            ((htracks.prune key).later hannouncing).window key
          exact ⟨dropped, (List.append_nil _).trans heq, hold⟩
      · have hrecent := recent_later k s.seen (hnow.trans hannouncing)
        have hbudget := h.budget k
        show recent k (s.seen ++ [_]) announcing + List.countP _ _ ≤ _
        unfold recent at hrecent hbudget ⊢
        rw [happend, standing_append]
        unfold stand
        simp only [signInOf, chargeOf, Option.isSome_none, Bool.false_eq_true,
          if_false, Option.toList_none, List.append_nil, Request.isChecking,
          Nat.add_zero]
        omega
      · refine h.bounded.append (fun k t ht => by cases ht) ?_
        intro k moment announcedAt wait heq
        cases heq
        refine ⟨?_, fun later hlater => ?_⟩
        · rw [hlength] at hblocked
          refine hblocked.trans ?_
          refine le_trans ?_ (standing_sublist key s.seen).countP_le
          refine List.countP_mono_left fun t ht hrecent => ?_
          have hpast := hordered.standing_past ht
          simp only [decide_eq_true_eq] at hrecent ⊢
          exact ⟨by linarith, hpast⟩
        · exact htracks.announced hannouncing (hwait hblocked) hlater
    case isFalse hblocked =>
      have hroom := hroom (not_le.1 hblocked)
      refine ⟨hordered, htracks.prune key, fun k => ?_, h.bounded⟩
      have hrecent := recent_later k s.seen hnow
      have hbudget := h.budget k
      show recent k s.seen now + List.countP _ _ ≤ _
      rw [happend]
      by_cases hk : key = k
      · subst hk
        have hone : Request.isChecking key (.checking endpoint key) = true :=
          decide_eq_true rfl
        rw [hone, if_pos rfl]
        rw [hlength] at hroom
        unfold recent
        omega
      · have hnone : Request.isChecking k (.checking endpoint key) = false :=
          decide_eq_false hk
        rw [hnone]
        simp only [Bool.false_eq_true, if_false]
        omega

-- ======== the runs

theorem Sound.step {allowRegistration : Bool} {s s' : Server} {a : AuthStep}
    (h : Sound s) (hstep : s.step allowRegistration a = some s')
    (hcareful : Careful allowRegistration s a) : Sound s' := by
  cases a with
  | arrive endpoint key now announcing =>
    simp only [Server.step] at hstep
    split at hstep
    case isTrue hclock =>
      cases hstep
      exact h.arrive hclock.1 hclock.2 hcareful
    case isFalse => cases hstep
  | resolve i outcome now =>
    simp only [Server.step] at hstep
    split at hstep
    case isFalse => cases hstep
    case isTrue hnow =>
      unfold Server.resolve at hstep
      split at hstep
      case h_2 => cases hstep
      case h_1 endpoint key hi =>
        cases endpoint <;> cases outcome <;> cases hstep
        case login.passed => exact h.quiet hi (fun _ => rfl) hnow
        case login.failed => exact h.charge hi hnow (.inl rfl)
        case register.failed => exact h.charge hi hnow (.inr rfl)
        all_goals exact h.quiet hi (fun _ => rfl) hnow
  | stored i committed now =>
    simp only [Server.step] at hstep
    split at hstep
    case isFalse => cases hstep
    case isTrue hnow =>
      unfold Server.stored at hstep
      split at hstep
      case h_2 => cases hstep
      case h_1 key hi =>
        split at hstep
        case isTrue =>
          cases hstep
          exact h.signIn hi hnow
        case isFalse =>
          cases hstep
          exact h.quiet hi (fun _ => rfl) hnow

theorem sound_start (now : ℚ) : Sound { now := now } := by
  refine ⟨⟨List.Pairwise.nil, nofun⟩, fun key => ⟨[], rfl, nofun⟩,
    fun key => Nat.zero_le _, ⟨fun key start _ => Nat.zero_le _, ?_, ?_⟩⟩
  · intro before key moment announcedAt wait after heq
    exact absurd heq (by simp)
  · intro before key moment announcedAt wait after heq
    exact absurd heq (by simp)

/-- Guessing is bounded in every run that lets requests in while there is
room for all that are being checked, and announces a wait once the failures
in its way are in their last second. -/
theorem guessing_bounded (allowRegistration : Bool) (start : ℚ)
    (steps : List AuthStep)
    (hcareful : (Server.machine allowRegistration).EveryStep
      (Careful allowRegistration) { now := start } steps) :
    (Server.machine allowRegistration).Always (fun s => Bounded s.seen)
      { now := start } steps := by
  have hstep : ∀ s a s' es, Sound s →
      (Server.machine allowRegistration).step s a = some (s', es) →
      Careful allowRegistration s a → Sound s' := by
    intro s a s' es h hstep hc
    obtain ⟨t, ht, hts⟩ := Option.map_eq_some_iff.1 hstep
    cases hts
    exact h.step ht hc
  have hall := Machine.always_of_everyStep hstep (sound_start start) hcareful
  exact hall.mono fun s h => h.bounded

/-- One guess after another: five of them, and a sixth request that is told to
wait for the last second of the window. -/
def oneByOne : List AuthStep :=
  ((List.range 5).flatMap fun i =>
    [.arrive .login "client" (i / 8) (i / 8), .resolve i .failed (i / 8)])
    ++ [.arrive .login "client" (899 + 3 / 4) (899 + 3 / 4)]

/-- For one guess after another. -/
theorem guessing_bounded_oneByOne :
    (Server.machine false).Always (fun s => Bounded s.seen) { now := 0 }
      oneByOne :=
  guessing_bounded false 0 oneByOne (by decide +kernel)

/-- Outside the last second the wait is too short: told to wait 890 seconds
at the tenth, a client that comes back at the nine hundredth is refused for
the same five failures. -/
example : ((Server.machine false).run { now := 0 }
    (((List.range 5).flatMap fun i =>
        [.arrive .login "client" i i, .resolve i .failed i])
      ++ [.arrive .login "client" 10 10, .arrive .login "client" 900 900])).map
      (fun r => r.1.requests.drop 5)
    = some [.answered (.tooManyRequests 890),
        .answered (.tooManyRequests 1)] := by decide +kernel

-- ------ example six checks at once

/-- Six logins arrive before the first check comes back, and all fail. -/
def sixAtOnce : List AuthStep :=
  (List.replicate 6 (.arrive .login "client" 0 0))
    ++ (List.range 6).map fun i => .resolve i .failed 1

/-- Six checks fail in one window. -/
theorem not_guessing_bounded :
    ¬ ∀ (allowRegistration : Bool) (start : ℚ) (steps : List AuthStep),
      (Server.machine allowRegistration).Always (fun s => Bounded s.seen)
        { now := start } steps := by
  intro hall
  have hrun : ((Server.machine false).run { now := 0 } sixAtOnce).map (fun r =>
      (r.1.seen.filterMap (signInOf "client"),
        (r.1.seen.filterMap (guessOf "client")).countP fun t =>
          decide ((0 : ℚ) ≤ t ∧ t ≤ 0 + windowSeconds))) = some ([], 6) := by
    decide +kernel
  obtain ⟨⟨s, es⟩, hs, hseen⟩ := Option.map_eq_some_iff.1 hrun
  obtain ⟨hfree, hsix⟩ := Prod.mk.inj hseen
  have hbound := ((hall false 0 sixAtOnce).last hs).guesses "client" 0 (by
    rw [hfree]
    exact nofun)
  rw [hsix] at hbound
  exact absurd hbound (by decide)

end Accounts

end MemoryOS
