/-
Signing in and registering, as far as the attempts are limited
(`api/routes/auth.py`).

A request checks the limiter before it awaits anything, and charges it when
its credentials turned out wrong; between the two, other requests run. The
code between two awaits is one step here, with the clock it reads.
-/
import Mathlib.Algebra.Order.Field.Rat
import Mathlib.Data.Rat.Floor
import Mathlib.Logic.Function.Basic
import MemoryOS.Lib.Machine

namespace MemoryOS

open Lib

namespace Accounts

/-- `MAX_ATTEMPTS`. -/
def maxAttempts : Nat := 5

/-- `WINDOW_SECONDS`. -/
def windowSeconds : ℚ := 15 * 60

-- ====== the limiter

/-- `LoginRateLimiter`: the failures of each client, oldest first. A client
without an entry has none. -/
structure LoginRateLimiter where
  attempts : String → List ℚ := fun _ => []

namespace LoginRateLimiter

variable (limiter : LoginRateLimiter) (key : String) (now : ℚ)

/-- `_prune`: the window that is left of a client's failures. -/
def window : List ℚ :=
  (limiter.attempts key).dropWhile fun t => decide (windowSeconds < now - t)

/-- `_prune`, as it leaves the limiter. -/
def prune : LoginRateLimiter where
  attempts := Function.update limiter.attempts key (limiter.window key now)

/-- `blocked`. -/
def blocked : Bool × LoginRateLimiter :=
  (decide (maxAttempts ≤ (limiter.window key now).length),
    limiter.prune key now)

/-- `record_failure`. -/
def recordFailure : LoginRateLimiter where
  attempts := Function.update limiter.attempts key
    (limiter.window key now ++ [now])

/-- `clear`. -/
def clear : LoginRateLimiter where
  attempts := Function.update limiter.attempts key []

/-- `retry_after`. What `int` rounds down is not negative: what is left of
the window is no older than it. -/
def retryAfter : Int × LoginRateLimiter :=
  (match limiter.window key now with
    | [] => 0
    | oldest :: _ => max 1 ⌊windowSeconds - (now - oldest)⌋,
    limiter.prune key now)

end LoginRateLimiter

-- ====== the requests

/-- The two routes that check credentials. -/
inductive Endpoint
  | login | register
deriving DecidableEq, Repr

/-- How a request was answered: the status, and `Retry-After`. -/
inductive Reply
  | tooManyRequests (retryAfter : Int)
  | notFound
  | unauthorized
  | conflict
  | unprocessable
  | ok
  /-- An exception, or a client that went away. -/
  | raised
deriving DecidableEq, Repr

/-- A request: its credentials are being checked, its session is being
stored, or it was answered. -/
inductive Request
  | checking (endpoint : Endpoint) (key : String)
  | signingIn (key : String)
  | answered (reply : Reply)
deriving DecidableEq, Repr

/-- What comes of the credentials: for a login, whether they are right; for
a registration, whether the address is free. -/
inductive Outcome
  | passed | failed | weakPassword | raised
deriving DecidableEq, Repr

/-- What happened, for whoever watches. -/
inductive AuthEvent
  /-- A password check failed. -/
  | checkFailed (key : String) (moment : ℚ)
  /-- An address was registered already. -/
  | taken (key : String) (moment : ℚ)
  | signedIn (key : String) (moment : ℚ)
  /-- A request was refused at one reading of the clock, and told at another
  how long to wait. -/
  | refused (key : String) (moment announcedAt : ℚ) (retryAfter : Int)
deriving DecidableEq

/-- The process that answers, its clock's last reading, and what happened so
far. -/
structure Server where
  limiter : LoginRateLimiter := {}
  requests : List Request := []
  now : ℚ
  seen : List AuthEvent := []

/-- What happens next: a request arrives, the check of its credentials comes
back, or its session has been stored. -/
inductive AuthStep
  | arrive (endpoint : Endpoint) (key : String) (now announcing : ℚ)
  | resolve (request : Nat) (outcome : Outcome) (now : ℚ)
  | stored (request : Nat) (committed : Bool) (now : ℚ)

namespace Server

/-- The beginning of `login` and `register`, up to the first await. -/
def arrive (allowRegistration : Bool) (s : Server) (endpoint : Endpoint)
    (key : String) (now announcing : ℚ) : Server :=
  if endpoint = .register ∧ allowRegistration = false then
    { s with requests := s.requests ++ [.answered .notFound], now := now }
  else
    let checked := s.limiter.blocked key now
    if checked.1 then
      let wait := checked.2.retryAfter key announcing
      { limiter := wait.2
        requests := s.requests ++ [.answered (.tooManyRequests wait.1)]
        now := announcing
        seen := s.seen ++ [.refused key now announcing wait.1] }
    else
      { s with
        limiter := checked.2
        requests := s.requests ++ [.checking endpoint key]
        now := now }

/-- A request is answered, and nothing else happens. -/
def answer (s : Server) (i : Nat) (reply : Reply) (now : ℚ) : Server :=
  { s with requests := s.requests.set i (.answered reply), now := now }

/-- A failure is charged to a client. -/
def charge (s : Server) (i : Nat) (reply : Reply) (key : String) (now : ℚ)
    (event : AuthEvent) : Server where
  limiter := s.limiter.recordFailure key now
  requests := s.requests.set i (.answered reply)
  now := now
  seen := s.seen ++ [event]

/-- `login` and `register`, from the answer of `AuthenticateUser` or
`CreateUser` to the next await. A weak password is refused without a
charge. -/
def resolve (s : Server) (i : Nat) (outcome : Outcome) (now : ℚ) :
    Option Server :=
  match s.requests[i]? with
  | some (.checking endpoint key) =>
    match endpoint, outcome with
    | .login, .passed =>
      some { s with requests := s.requests.set i (.signingIn key), now := now }
    | .login, .failed =>
      some (s.charge i .unauthorized key now (.checkFailed key now))
    | .login, .weakPassword => none
    | .register, .passed => some (s.answer i .ok now)
    | .register, .failed =>
      some (s.charge i .conflict key now (.taken key now))
    | .register, .weakPassword => some (s.answer i .unprocessable now)
    | _, .raised => some (s.answer i .raised now)
  | _ => none

/-- `login`, after the commit. -/
def stored (s : Server) (i : Nat) (committed : Bool) (now : ℚ) :
    Option Server :=
  match s.requests[i]? with
  | some (.signingIn key) =>
    if committed then
      some {
        limiter := s.limiter.clear key
        requests := s.requests.set i (.answered .ok)
        now := now
        seen := s.seen ++ [.signedIn key now] }
    else some (s.answer i .raised now)
  | _ => none

/-- One step. The clock does not go back. -/
def step (allowRegistration : Bool) (s : Server) : AuthStep → Option Server
  | .arrive endpoint key now announcing =>
    if s.now ≤ now ∧ now ≤ announcing then
      some (s.arrive allowRegistration endpoint key now announcing)
    else none
  | .resolve i outcome now =>
    if s.now ≤ now then s.resolve i outcome now else none
  | .stored i committed now =>
    if s.now ≤ now then s.stored i committed now else none

/-- The steps as a machine. -/
def machine (allowRegistration : Bool) : Machine Server AuthStep Unit :=
  ⟨fun s a => (s.step allowRegistration a).map fun s' => (s', [])⟩

end Server

end Accounts

end MemoryOS
