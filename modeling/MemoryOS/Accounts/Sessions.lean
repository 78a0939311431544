/-
Passwords and sessions (`application/auth.py`, `api/routes/auth.py`), as
PostgreSQL runs them at READ COMMITTED.

# What a step is

A statement sees what was committed when it began; what a transaction writes
is seen by others when it commits, and the rows it wrote are locked until
then. A statement that needs a locked row waits: its step is disabled. Each
of a transaction's statements is a step, and an `UPDATE` of many rows is one
for what it sees and one for each row.

The session autoflushes: the reset's new hash is written before the sessions
are looked at.
-/
import MemoryOS.Domain.Text
import MemoryOS.Lib.Machine

namespace MemoryOS

open Lib

namespace Accounts

/-- `SESSION_TTL`, in seconds. -/
def sessionTtl : Int := 30 * 24 * 60 * 60

/-- `MIN_PASSWORD_LENGTH`. -/
def minPasswordLength : Nat := 12

/-- A row of `users`. -/
structure User where
  id : Id
  email : Text
  passwordHash : String
  lastLoginAt : Option Int := none
deriving DecidableEq, Repr

/-- A row of `sessions`. -/
structure UserSession where
  userId : Id
  tokenHash : String
  createdAt : Int
  expiresAt : Int
  revokedAt : Option Int := none
  /-- Not a column: how many resets of the account had been committed when
  the password was checked. -/
  checked : Nat
deriving DecidableEq, Repr

/-- What is not modelled: the password hasher, the token's hash, and
Unicode. -/
structure Secrets where
  /-- `PasswordHasher.verify`. -/
  verify : String → Text → Bool
  /-- `hash_token`. -/
  hashToken : String → String
  unicode : Unicode

/-- `normalise_email`. -/
def Secrets.normaliseEmail (secrets : Secrets) (email : Text) : Text :=
  secrets.unicode.lower (strip email)

/-- A transaction, by what it has done so far. -/
inductive Transaction
  /-- The password was right for the row that was read. -/
  | loginRead (user : User) (checked : Nat)
  /-- `last_login_at` is written. -/
  | loginFlushed (user : User) (checked : Nat) (lastLoginAt : Int)
  /-- The session is inserted. -/
  | loginIssued (user : User) (lastLoginAt : Int) (row : UserSession)
  | resetRead (user : User) (passwordHash : String)
  /-- The new hash is written. -/
  | resetFlushed (user : User) (passwordHash : String)
  /-- The sessions that were seen are being revoked: those yet to come, and
  those that are, by their place in the table. -/
  | resetRevoking (user : User) (passwordHash : String) (revokedAt : Int)
      (remaining revoked : List Nat)
  | logout (revokedAt : Int) (revoked : List Nat)
  | ended
deriving DecidableEq, Repr

/-- The row of `users` that a transaction has locked. -/
def Transaction.locksUser : Transaction → Option Id
  | .loginFlushed user _ _ => some user.id
  | .loginIssued user _ _ => some user.id
  | .resetFlushed user _ => some user.id
  | .resetRevoking user _ _ _ _ => some user.id
  | _ => none

/-- The rows of `sessions` that a transaction has locked. -/
def Transaction.locksSessions : Transaction → List Nat
  | .resetRevoking _ _ _ _ revoked => revoked
  | .logout _ revoked => revoked
  | _ => []

/-- The committed tables, the transactions, and the last reading of the
clock. -/
structure AuthDb where
  users : List User
  sessions : List UserSession := []
  transactions : List Transaction := []
  now : Int
  /-- Not in the database: how many resets of an account were committed. -/
  resets : Id → Nat := fun _ => 0

/-- What happens next. The transactions are numbered as they begin. -/
inductive SessionStep
  /-- A login reads the account and checks the password. -/
  | login (email password : Text) (now : Int)
  /-- The login writes `last_login_at`. -/
  | flush (transaction : Nat) (now : Int)
  /-- The login inserts a session for a new token. -/
  | issue (transaction : Nat) (token : String) (now : Int)
  /-- A reset reads the account; its new password has a new hash. -/
  | reset (email password : Text) (passwordHash : String) (now : Int)
  /-- The reset writes the new hash. -/
  | rehash (transaction : Nat) (now : Int)
  /-- The reset's second `UPDATE` begins. -/
  | revoke (transaction : Nat) (now : Int)
  /-- It comes to the next session that it saw. -/
  | revokeNext (transaction : Nat) (now : Int)
  | logout (token : String) (now : Int)
  | commit (transaction : Nat) (now : Int)
  | rollback (transaction : Nat) (now : Int)
  | lookup (token : String) (now : Int)

/-- The clock's reading at a step. -/
def SessionStep.now : SessionStep → Int
  | .login _ _ now => now
  | .flush _ now => now
  | .issue _ _ now => now
  | .reset _ _ _ now => now
  | .rehash _ now => now
  | .revoke _ now => now
  | .revokeNext _ now => now
  | .logout _ now => now
  | .commit _ now => now
  | .rollback _ now => now
  | .lookup _ now => now

namespace AuthDb

variable (secrets : Secrets)

-- ====== the tables

/-- The account of an address. -/
def byEmail (s : AuthDb) (email : Text) : Option User :=
  s.users.find? fun u => decide (u.email = secrets.normaliseEmail email)

/-- A live session: neither revoked nor expired. -/
def live (s : AuthDb) (row : UserSession) : Bool :=
  row.revokedAt.isNone && decide (s.now < row.expiresAt)

/-- `active_session`. -/
def activeSession (s : AuthDb) (token : String) :
    Option (UserSession × User) :=
  (s.sessions.find? fun row =>
    decide (row.tokenHash = secrets.hashToken token) && s.live row).bind
    fun row => (s.users.find? fun u => decide (u.id = row.userId)).map
      fun user => (row, user)

/-- Whether another transaction has locked a row of `users`. -/
def userLocked (s : AuthDb) (i : Nat) (userId : Id) : Bool :=
  s.transactions.zipIdx.any fun t =>
    decide (t.2 ≠ i) && decide (t.1.locksUser = some userId)

/-- Whether another transaction has locked a row of `sessions`. -/
def sessionLocked (s : AuthDb) (i place : Nat) : Bool :=
  s.transactions.zipIdx.any fun t =>
    decide (t.2 ≠ i) && t.1.locksSessions.contains place

/-- The places of the committed sessions that a condition selects. -/
def places (s : AuthDb) (select : UserSession → Bool) : List Nat :=
  (s.sessions.zipIdx.filter fun r => select r.1).map (·.2)

-- ====== the statements

/-- A transaction goes on. -/
def set (s : AuthDb) (i : Nat) (t : Transaction) : AuthDb :=
  { s with transactions := s.transactions.set i t }

/-- A transaction begins. -/
def begin (s : AuthDb) (t : Transaction) : AuthDb :=
  { s with transactions := s.transactions ++ [t] }

/-- `AuthenticateUser`, up to the check. -/
def login (s : AuthDb) (email password : Text) : AuthDb :=
  match s.byEmail secrets email with
  | none => s.begin .ended
  | some user =>
    if secrets.verify user.passwordHash password then
      s.begin (.loginRead user (s.resets user.id))
    else s.begin .ended

/-- `AuthenticateUser`, the flush. -/
def flush (s : AuthDb) (i : Nat) : Option AuthDb :=
  match s.transactions[i]? with
  | some (.loginRead user checked) =>
    if s.userLocked i user.id then none
    else some (s.set i (.loginFlushed user checked s.now))
  | _ => none

/-- `IssueSession`. A token that is there already is refused. -/
def issue (s : AuthDb) (i : Nat) (token : String) : Option AuthDb :=
  match s.transactions[i]? with
  | some (.loginFlushed user checked lastLoginAt) =>
    if s.sessions.any fun row =>
        decide (row.tokenHash = secrets.hashToken token) then
      some (s.set i .ended)
    else some (s.set i (.loginIssued user lastLoginAt {
      userId := user.id
      tokenHash := secrets.hashToken token
      createdAt := s.now
      expiresAt := s.now + sessionTtl
      checked := checked }))
  | _ => none

/-- `ResetPassword`, up to the new hash. -/
def reset (s : AuthDb) (email password : Text) (passwordHash : String) :
    AuthDb :=
  if password.length < minPasswordLength then s.begin .ended
  else
    match s.byEmail secrets email with
    | none => s.begin .ended
    | some user => s.begin (.resetRead user passwordHash)

/-- `ResetPassword`, the autoflush. -/
def rehash (s : AuthDb) (i : Nat) : Option AuthDb :=
  match s.transactions[i]? with
  | some (.resetRead user passwordHash) =>
    if s.userLocked i user.id then none
    else some (s.set i (.resetFlushed user passwordHash))
  | _ => none

/-- `ResetPassword`, the sessions that its `UPDATE` sees. -/
def revoke (s : AuthDb) (i : Nat) : Option AuthDb :=
  match s.transactions[i]? with
  | some (.resetFlushed user passwordHash) =>
    some (s.set i (.resetRevoking user passwordHash s.now
      (s.places fun row => decide (row.userId = user.id)
        && row.revokedAt.isNone) []))
  | _ => none

/-- The next of them, once it is unlocked: it is revoked unless it was
meanwhile. -/
def revokeNext (s : AuthDb) (i : Nat) : Option AuthDb :=
  match s.transactions[i]? with
  | some (.resetRevoking user passwordHash revokedAt (place :: remaining)
      revoked) =>
      if s.sessionLocked i place then none
      else
        match s.sessions[place]? with
        | none => none
        | some row => some (s.set i (.resetRevoking user passwordHash revokedAt
            remaining (if row.revokedAt.isNone then revoked ++ [place]
              else revoked)))
  | _ => none

/-- `revoke_session`, once the rows are unlocked. -/
def logout (s : AuthDb) (token : String) : Option AuthDb :=
  let found := s.places fun row =>
    decide (row.tokenHash = secrets.hashToken token) && row.revokedAt.isNone
  if found.any (s.sessionLocked s.transactions.length) then none
  else some (s.begin (.logout s.now found))

/-- The sessions at some places are revoked. -/
def revokeAt (sessions : List UserSession) (revokedAt : Int)
    (revoked : List Nat) : List UserSession :=
  sessions.mapIdx fun place row =>
    if revoked.contains place then { row with revokedAt := some revokedAt }
    else row

/-- One account's row is written. -/
def writeUser (users : List User) (id : Id) (write : User → User) :
    List User :=
  users.map fun u => if u.id = id then write u else u

/-- What a transaction wrote is committed. -/
def commit (s : AuthDb) (i : Nat) : Option AuthDb :=
  match s.transactions[i]? with
  | some (.loginIssued user lastLoginAt row) =>
    some { s.set i .ended with
      users := writeUser s.users user.id fun u =>
        { u with lastLoginAt := some lastLoginAt }
      sessions := s.sessions ++ [row] }
  | some (.resetRevoking user passwordHash revokedAt [] revoked) =>
    some { s.set i .ended with
      users := writeUser s.users user.id fun u =>
        { u with passwordHash := passwordHash }
      sessions := revokeAt s.sessions revokedAt revoked
      resets := fun id => s.resets id + if id = user.id then 1 else 0 }
  | some (.logout revokedAt revoked) =>
    some { s.set i .ended with
      sessions := revokeAt s.sessions revokedAt revoked }
  | _ => none

/-- A transaction is rolled back. -/
def rollback (s : AuthDb) (i : Nat) : Option AuthDb :=
  s.transactions[i]?.map fun _ => s.set i .ended

/-- One step. Time does not go back. -/
def step (s : AuthDb) (a : SessionStep) : Option AuthDb :=
  if s.now ≤ a.now then
    let s := { s with now := a.now }
    match a with
    | .login email password _ => some (s.login secrets email password)
    | .flush i _ => s.flush i
    | .issue i token _ => s.issue secrets i token
    | .reset email password passwordHash _ =>
      some (s.reset secrets email password passwordHash)
    | .rehash i _ => s.rehash i
    | .revoke i _ => s.revoke i
    | .revokeNext i _ => s.revokeNext i
    | .logout token _ => s.logout secrets token
    | .commit i _ => s.commit i
    | .rollback i _ => s.rollback i
    | .lookup _ _ => some s
  else none

/-- The steps as a machine. -/
def machine : Machine AuthDb SessionStep Unit :=
  ⟨fun s a => (s.step secrets a).map fun s' => (s', [])⟩

end AuthDb

end Accounts

end MemoryOS
