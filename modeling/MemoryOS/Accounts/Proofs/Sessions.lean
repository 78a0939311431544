/-
When a password reset ends every earlier access.

# The result

`access_ended`: in every run in which no login commits a session that is
still good after a reset of its account was committed since it read the
hash, no session that a lookup accepts was opened against an earlier hash.
That a session once revoked or expired is never accepted again holds of
every run.

A login and a reset both write the account's row before they come to the
sessions, so one waits for the other (`Sealed.exclusive`). What a reset sees
of the sessions is then all that are committed until it commits
(`Sealed.covered`): a login of the account that has not committed by then
has not written the account's row either, and writes it after the reset.
-/
import MemoryOS.Accounts.Sessions

namespace MemoryOS

open Lib

namespace Accounts

variable {secrets : Secrets} {s : AuthDb}

-- ====== statement vocabulary

/-- No session that the lookup accepts was opened against an earlier hash. -/
def EarlierRefused (secrets : Secrets) (s : AuthDb) : Prop :=
  ∀ token row user, s.activeSession secrets token = some (row, user) →
    row.checked = s.resets row.userId

/-- What was revoked or had expired at one time is not accepted at
another. -/
def NeverAgain (secrets : Secrets) (earlier later : AuthDb) : Prop :=
  ∀ (place : Nat) row, earlier.sessions[place]? = some row →
    earlier.live row = false →
    ∀ token row' user, later.activeSession secrets token = some (row', user) →
      later.sessions[place]? ≠ some row'

/-- The session that a login has inserted. -/
def Transaction.issued : Transaction → Option UserSession
  | .loginIssued _ _ row => some row
  | _ => none

/-- A login that commits a session which is still good read the hash that the
account has. -/
def Timely (s : AuthDb) : SessionStep → Prop
  | .commit i now => ∀ row ∈ s.transactions[i]?.bind Transaction.issued,
      now < row.expiresAt → row.checked = s.resets row.userId
  | _ => True

instance decidableTimely (s : AuthDb) : ∀ a, Decidable (Timely s a)
  | .commit i now => inferInstanceAs (Decidable
      (∀ row ∈ s.transactions[i]?.bind Transaction.issued,
        now < row.expiresAt → row.checked = s.resets row.userId))
  | .login .. | .flush .. | .issue .. | .reset .. | .rehash .. | .revoke ..
  | .revokeNext .. | .logout .. | .rollback .. | .lookup .. =>
    inferInstanceAs (Decidable True)

/-- The tables before anybody signed in. -/
def AuthDb.start (users : List User) (now : Int) : AuthDb where
  users := users
  now := now

-- ======= the locks

variable {t : Transaction} {row : UserSession} {s s' : AuthDb}
  {revoked : List Nat} {i place : Nat} {revokedAt : Int} {user : User}

theorem userLocked_false {j : Nat} {id : Id}
    (h : s.userLocked i id = false) (hj : s.transactions[j]? = some t)
    (ht : t.locksUser = some id) : j = i := by
  by_contra hne
  unfold AuthDb.userLocked at h
  rw [List.any_eq_false] at h
  refine h (t, j) (List.mem_zipIdx_iff_getElem?.2 hj) ?_
  simp [hne, ht]

/-- What careful runs keep. -/
structure Sealed (s : AuthDb) : Prop where
  exclusive : ∀ (i j : Nat) t u id, s.transactions[i]? = some t →
    s.transactions[j]? = some u → t.locksUser = some id →
    u.locksUser = some id → i = j
  covered : ∀ (i : Nat) user passwordHash revokedAt remaining revoked,
    s.transactions[i]? = some (.resetRevoking user passwordHash revokedAt
      remaining revoked) →
    ∀ (place : Nat) row, s.sessions[place]? = some row → row.userId = user.id →
      row.revokedAt = none → place ∈ remaining ∨ place ∈ revoked
  fresh : ∀ row ∈ s.sessions, s.live row = true →
    row.checked = s.resets row.userId
  issued : ∀ (i : Nat) user lastLoginAt row,
    s.transactions[i]? = some (.loginIssued user lastLoginAt row) →
    row.userId = user.id

theorem exclusive_set {transactions : List Transaction}
    (h : ∀ (i j : Nat) t u id, transactions[i]? = some t → transactions[j]? = some u →
      t.locksUser = some id → u.locksUser = some id → i = j)
    (ht : ∀ (j : Nat) u id, transactions[j]? = some u → u.locksUser = some id →
      t.locksUser = some id → j = i) :
    ∀ (j k : Nat) u v id, (transactions.set i t)[j]? = some u →
      (transactions.set i t)[k]? = some v → u.locksUser = some id →
      v.locksUser = some id → j = k := by
  intro j k u v id hj hk hu hv
  rw [List.getElem?_set] at hj hk
  split at hj <;> split at hk
  case isTrue.isTrue hij hik => exact hij.symm.trans hik
  case isTrue.isFalse hij hik =>
    split at hj
    case isTrue =>
      cases hj
      exact (hij ▸ ht k v id hk hv hu).symm
    case isFalse => cases hj
  case isFalse.isTrue hij hik =>
    split at hk
    case isTrue =>
      cases hk
      exact hik ▸ ht j u id hj hu hv
    case isFalse => cases hk
  case isFalse.isFalse => exact h j k u v id hj hk hu hv

theorem Sealed.set (h : Sealed s)
    (hlock : ∀ (j : Nat) u id, s.transactions[j]? = some u → u.locksUser = some id →
      t.locksUser = some id → j = i)
    (hcovered : ∀ user passwordHash revokedAt remaining revoked,
      t = .resetRevoking user passwordHash revokedAt remaining revoked →
      ∀ (place : Nat) row, s.sessions[place]? = some row →
        row.userId = user.id → row.revokedAt = none →
        place ∈ remaining ∨ place ∈ revoked)
    (hissued : ∀ user lastLoginAt row, t = .loginIssued user lastLoginAt row →
      row.userId = user.id) : Sealed (s.set i t) := by
  refine ⟨exclusive_set h.exclusive hlock, ?_, h.fresh, ?_⟩
  · intro j user passwordHash revokedAt remaining revoked hj
    replace hj : (s.transactions.set i t)[j]? = _ := hj
    rw [List.getElem?_set] at hj
    split at hj
    case isTrue =>
      split at hj
      case isTrue => exact hcovered _ _ _ _ _ (Option.some.inj hj)
      case isFalse => cases hj
    case isFalse => exact h.covered j _ _ _ _ _ hj
  · intro j user lastLoginAt row hj
    replace hj : (s.transactions.set i t)[j]? = _ := hj
    rw [List.getElem?_set] at hj
    split at hj
    case isTrue =>
      split at hj
      case isTrue => exact hissued _ _ _ (Option.some.inj hj)
      case isFalse => cases hj
    case isFalse => exact h.issued j _ _ _ hj

theorem Sealed.begin (h : Sealed s)
    (hlock : t.locksUser = none) : Sealed (s.begin t) := by
  have hold : ∀ (j : Nat) u, (s.transactions ++ [t])[j]? = some u →
      u.locksUser ≠ none → s.transactions[j]? = some u := by
    intro j u hj hu
    rw [List.getElem?_append] at hj
    split at hj
    case isTrue => exact hj
    case isFalse =>
      rw [List.getElem?_singleton] at hj
      split at hj
      case isTrue =>
        cases hj
        exact absurd hlock hu
      case isFalse => cases hj
  refine ⟨?_, ?_, h.fresh, ?_⟩
  · intro i j u v id hi hj hu hv
    exact h.exclusive i j u v id (hold i u hi (by simp [hu]))
      (hold j v hj (by simp [hv])) hu hv
  · intro i user passwordHash revokedAt remaining revoked hi
    exact h.covered i _ _ _ _ _ (hold i _ hi nofun)
  · intro i user lastLoginAt row hi
    exact h.issued i _ _ _ (hold i _ hi nofun)

theorem Sealed.later (h : Sealed s) {now : Int} (hnow : s.now ≤ now) :
    Sealed { s with now := now } := by
  refine ⟨h.exclusive, h.covered, fun row hrow hlive => ?_, h.issued⟩
  refine h.fresh row hrow ?_
  unfold AuthDb.live at hlive ⊢
  simp only [Bool.and_eq_true, decide_eq_true_eq] at hlive ⊢
  exact ⟨hlive.1, Int.lt_of_le_of_lt hnow hlive.2⟩

-- ====== the commits

theorem revokeAt_get {sessions : List UserSession}
    (h : (AuthDb.revokeAt sessions revokedAt revoked)[place]? = some row) :
    ∃ old, sessions[place]? = some old
      ∧ row = if revoked.contains place then
          { old with revokedAt := some revokedAt } else old := by
  unfold AuthDb.revokeAt at h
  rw [List.getElem?_mapIdx] at h
  obtain ⟨old, hold, rfl⟩ := Option.map_eq_some_iff.1 h
  exact ⟨old, hold, rfl⟩

theorem revokeAt_unrevoked {sessions : List UserSession}
    (h : (AuthDb.revokeAt sessions revokedAt revoked)[place]? = some row)
    (hrow : row.revokedAt = none) :
    sessions[place]? = some row ∧ place ∉ revoked := by
  obtain ⟨old, hold, rfl⟩ := revokeAt_get h
  split at hrow
  case isTrue => cases hrow
  case isFalse hnot =>
    rw [if_neg hnot]
    exact ⟨hold, fun hin => hnot (List.contains_iff_mem.2 hin)⟩

theorem Sealed.commitLogin (h : Sealed s)
    {lastLoginAt : Int}
    (hi : s.transactions[i]? = some (.loginIssued user lastLoginAt row))
    (htimely : s.now < row.expiresAt → row.checked = s.resets row.userId)
    (users : List User) :
    Sealed { s.set i .ended with
      users := users
      sessions := s.sessions ++ [row] } := by
  have hended : Sealed (s.set i .ended) := h.set nofun nofun nofun
  refine ⟨hended.exclusive, ?_, ?_, hended.issued⟩
  · intro j other passwordHash revokedAt remaining revoked hj place r hr hid
    replace hr : (s.sessions ++ [row])[place]? = some r := hr
    rw [List.getElem?_append] at hr
    split at hr
    case isTrue => exact hended.covered j _ _ _ _ _ hj place r hr hid
    case isFalse =>
      -- the reset and this login cannot both have the account's row
      rw [List.getElem?_singleton] at hr
      split at hr
      case isFalse => cases hr
      case isTrue =>
        cases hr
        replace hj : (s.transactions.set i .ended)[j]? = _ := hj
        rw [List.getElem?_set] at hj
        split at hj
        case isTrue =>
          split at hj
          case isTrue => cases hj
          case isFalse => cases hj
        case isFalse hne =>
          refine absurd (h.exclusive i j _ _ user.id hi hj rfl ?_) hne
          rw [← h.issued i _ _ _ hi, hid]
          rfl
  · intro r hr hlive
    rcases List.mem_append.1 hr with hr | hr
    · exact h.fresh r hr hlive
    · rw [List.mem_singleton.1 hr] at hlive ⊢
      unfold AuthDb.live at hlive
      simp only [Bool.and_eq_true, decide_eq_true_eq] at hlive
      exact htimely hlive.2

theorem Sealed.commitReset (h : Sealed s)
    {passwordHash : String}
    (hi : s.transactions[i]? = some (.resetRevoking user passwordHash revokedAt
      [] revoked)) (users : List User) :
    Sealed { s.set i .ended with
      users := users
      sessions := AuthDb.revokeAt s.sessions revokedAt revoked
      resets := fun id => s.resets id + if id = user.id then 1 else 0 } := by
  have hended : Sealed (s.set i .ended) := h.set nofun nofun nofun
  refine ⟨hended.exclusive, ?_, ?_, hended.issued⟩
  · intro j other hash moment remaining others hj place row hrow hid hnone
    obtain ⟨hold, -⟩ := revokeAt_unrevoked hrow hnone
    exact hended.covered j _ _ _ _ _ hj place row hold hid hnone
  · intro row hrow hlive
    have hlive' := hlive
    unfold AuthDb.live at hlive'
    simp only [Bool.and_eq_true, Option.isNone_iff_eq_none] at hlive'
    obtain ⟨place, hplace⟩ := List.mem_iff_getElem?.1 hrow
    obtain ⟨hold, hnot⟩ := revokeAt_unrevoked hplace hlive'.1
    have hother : row.userId ≠ user.id := fun hid =>
      (h.covered i _ _ _ _ _ hi place row hold hid hlive'.1).elim
        List.not_mem_nil hnot
    simp only [if_neg hother, Nat.add_zero]
    exact h.fresh row (List.mem_iff_getElem?.2 ⟨place, hold⟩) hlive

theorem Sealed.commitLogout (h : Sealed s) (i : Nat) (revokedAt : Int)
    (revoked : List Nat) :
    Sealed { s.set i .ended with
      sessions := AuthDb.revokeAt s.sessions revokedAt revoked } := by
  have hended : Sealed (s.set i .ended) := h.set nofun nofun nofun
  refine ⟨hended.exclusive, ?_, ?_, hended.issued⟩
  · intro j other hash moment remaining others hj place row hrow hid hnone
    obtain ⟨hold, -⟩ := revokeAt_unrevoked hrow hnone
    exact hended.covered j _ _ _ _ _ hj place row hold hid hnone
  · intro row hrow hlive
    have hlive' := hlive
    unfold AuthDb.live at hlive'
    simp only [Bool.and_eq_true, Option.isNone_iff_eq_none] at hlive'
    obtain ⟨place, hplace⟩ := List.mem_iff_getElem?.1 hrow
    obtain ⟨hold, -⟩ := revokeAt_unrevoked hplace hlive'.1
    exact h.fresh row (List.mem_iff_getElem?.2 ⟨place, hold⟩) hlive

-- ====== the statements

theorem mem_places {select : UserSession → Bool} (hplace : s.sessions[place]? = some row)
    (hselect : select row = true) : place ∈ s.places select := by
  unfold AuthDb.places
  exact List.mem_map.2 ⟨(row, place), List.mem_filter.2
    ⟨List.mem_zipIdx_iff_getElem?.2 hplace, hselect⟩, rfl⟩

theorem Sealed.keepsLock (h : Sealed s) {t' : Transaction}
    (hi : s.transactions[i]? = some t) (hsame : t'.locksUser = t.locksUser)
    (j : Nat) (u : Transaction) (id : Id)
    (hj : s.transactions[j]? = some u) (hu : u.locksUser = some id)
    (ht' : t'.locksUser = some id) : j = i :=
  h.exclusive j i u t id hj hi hu (hsame ▸ ht')

theorem Sealed.step (h : Sealed s) {s' : AuthDb} {a : SessionStep}
    (hstep : s.step secrets a = some s') (htimely : Timely s a) :
    Sealed s' := by
  unfold AuthDb.step at hstep
  split at hstep
  case isFalse => cases hstep
  case isTrue hnow =>
    have hlater := h.later hnow
    cases a with
    | login email password now =>
      cases hstep
      unfold AuthDb.login
      split
      case h_1 => exact hlater.begin rfl
      case h_2 =>
        split
        case isTrue => exact hlater.begin rfl
        case isFalse => exact hlater.begin rfl
    | reset email password passwordHash now =>
      cases hstep
      unfold AuthDb.reset
      split
      case isTrue => exact hlater.begin rfl
      case isFalse =>
        split
        case h_1 => exact hlater.begin rfl
        case h_2 => exact hlater.begin rfl
    | flush i now =>
      simp only [AuthDb.flush] at hstep
      split at hstep
      case h_2 => cases hstep
      case h_1 user checked hi =>
        split at hstep
        case isTrue => cases hstep
        case isFalse hfree =>
          cases hstep
          refine hlater.set (fun j u id hj hu ht => ?_) nofun nofun
          cases ht
          exact userLocked_false (Bool.not_eq_true _ ▸ hfree) hj hu
    | rehash i now =>
      simp only [AuthDb.rehash] at hstep
      split at hstep
      case h_2 => cases hstep
      case h_1 user passwordHash hi =>
        split at hstep
        case isTrue => cases hstep
        case isFalse hfree =>
          cases hstep
          refine hlater.set (fun j u id hj hu ht => ?_) nofun nofun
          cases ht
          exact userLocked_false (Bool.not_eq_true _ ▸ hfree) hj hu
    | issue i token now =>
      simp only [AuthDb.issue] at hstep
      split at hstep
      case h_2 => cases hstep
      case h_1 user checked lastLoginAt hi =>
        split at hstep
        case isTrue =>
          cases hstep
          exact hlater.set nofun nofun nofun
        case isFalse =>
          cases hstep
          refine hlater.set (hlater.keepsLock hi rfl) nofun ?_
          intro _ _ _ heq
          cases heq
          rfl
    | revoke i now =>
      simp only [AuthDb.revoke] at hstep
      split at hstep
      case h_2 => cases hstep
      case h_1 user passwordHash hi =>
        cases hstep
        refine hlater.set (hlater.keepsLock hi rfl) ?_ nofun
        intro _ _ _ _ _ heq place row hplace hid hnone
        cases heq
        refine .inl (mem_places hplace ?_)
        simp [hid, hnone]
    | revokeNext i now =>
      simp only [AuthDb.revokeNext] at hstep
      split at hstep
      case h_2 => cases hstep
      case h_1 user passwordHash revokedAt next remaining revoked hi =>
        split at hstep
        case isTrue => cases hstep
        case isFalse =>
          split at hstep
          case h_1 => cases hstep
          case h_2 current hcurrent =>
            cases hstep
            refine hlater.set (hlater.keepsLock hi rfl) ?_ nofun
            intro _ _ _ _ _ heq place row hplace hid hnone
            cases heq
            rcases hlater.covered i _ _ _ _ _ hi place row hplace hid hnone
              with hin | hin
            · rcases List.mem_cons.1 hin with rfl | hin
              · -- the session it came to
                cases hcurrent.symm.trans hplace
                rw [hnone]
                exact .inr (List.mem_append_right _
                  (List.mem_singleton_self _))
              · exact .inl hin
            · right
              split
              case isTrue => exact List.mem_append_left _ hin
              case isFalse => exact hin
    | logout token now =>
      simp only [AuthDb.logout] at hstep
      split at hstep
      case isTrue => cases hstep
      case isFalse =>
        cases hstep
        exact hlater.begin rfl
    | commit i now =>
      simp only [AuthDb.commit] at hstep
      split at hstep
      case h_1 user lastLoginAt row hi =>
        cases hstep
        exact hlater.commitLogin hi (htimely row (by rw [hi]; rfl)) _
      case h_2 user passwordHash revokedAt revoked hi =>
        cases hstep
        exact hlater.commitReset hi _
      case h_3 =>
        cases hstep
        exact hlater.commitLogout i _ _
      case h_4 => cases hstep
    | rollback i now =>
      obtain ⟨t, -, rfl⟩ := Option.map_eq_some_iff.1 hstep
      exact hlater.set nofun nofun nofun
    | lookup token now =>
      cases hstep
      exact hlater

-- ======== for good

/-- A session keeps its place, and stays what it was but for being
revoked. -/
structure Goes (s s' : AuthDb) : Prop where
  now : s.now ≤ s'.now
  kept : ∀ (place : Nat) row, s.sessions[place]? = some row →
    ∃ row', s'.sessions[place]? = some row' ∧ row'.expiresAt = row.expiresAt
      ∧ (row.revokedAt.isSome = true → row'.revokedAt.isSome = true)

theorem Goes.refl (s : AuthDb) : Goes s s :=
  ⟨Int.le_refl _, fun _ row h => ⟨row, h, rfl, fun h => h⟩⟩

theorem Goes.trans {s'' : AuthDb} (h : Goes s s') (h' : Goes s' s'') :
    Goes s s'' := by
  refine ⟨Int.le_trans h.now h'.now, fun place row hrow => ?_⟩
  obtain ⟨row', hrow', hexpires, hrevoked⟩ := h.kept place row hrow
  obtain ⟨row'', hrow'', hexpires', hrevoked'⟩ := h'.kept place row' hrow'
  exact ⟨row'', hrow'', hexpires'.trans hexpires,
    fun hr => hrevoked' (hrevoked hr)⟩

theorem goes_same (hnow : s'.now = s.now)
    (hsessions : s'.sessions = s.sessions) : Goes s s' :=
  ⟨Int.le_of_eq hnow.symm, fun _ row h => ⟨row, hsessions ▸ h, rfl, id⟩⟩

theorem goes_revokeAt (hnow : s'.now = s.now)
    (hsessions : s'.sessions
      = AuthDb.revokeAt s.sessions revokedAt revoked) : Goes s s' := by
  refine ⟨Int.le_of_eq hnow.symm, fun place row hrow => ?_⟩
  rw [hsessions]
  unfold AuthDb.revokeAt
  rw [List.getElem?_mapIdx, hrow]
  refine ⟨_, rfl, ?_, ?_⟩
  · split <;> rfl
  · intro hr
    split
    case isTrue => rfl
    case isFalse => exact hr

theorem goes_step {a : SessionStep}
    (hstep : s.step secrets a = some s') : Goes s s' := by
  unfold AuthDb.step at hstep
  split at hstep
  case isFalse => cases hstep
  case isTrue hnow =>
    have htime : Goes s { s with now := a.now } :=
      ⟨hnow, (Goes.refl s).kept⟩
    refine htime.trans ?_
    cases a with
    | login email password now =>
      cases hstep
      unfold AuthDb.login
      split
      case h_1 => exact goes_same rfl rfl
      case h_2 => split <;> exact goes_same rfl rfl
    | reset email password passwordHash now =>
      cases hstep
      unfold AuthDb.reset
      split
      case isTrue => exact goes_same rfl rfl
      case isFalse => split <;> exact goes_same rfl rfl
    | flush i now =>
      simp only [AuthDb.flush] at hstep
      split at hstep
      case h_2 => cases hstep
      case h_1 =>
        split at hstep <;> cases hstep
        exact goes_same rfl rfl
    | rehash i now =>
      simp only [AuthDb.rehash] at hstep
      split at hstep
      case h_2 => cases hstep
      case h_1 =>
        split at hstep <;> cases hstep
        exact goes_same rfl rfl
    | issue i token now =>
      simp only [AuthDb.issue] at hstep
      split at hstep
      case h_2 => cases hstep
      case h_1 => split at hstep <;> cases hstep <;> exact goes_same rfl rfl
    | revoke i now =>
      simp only [AuthDb.revoke] at hstep
      split at hstep
      case h_2 => cases hstep
      case h_1 =>
        cases hstep
        exact goes_same rfl rfl
    | revokeNext i now =>
      simp only [AuthDb.revokeNext] at hstep
      split at hstep
      case h_2 => cases hstep
      case h_1 =>
        split at hstep
        case isTrue => cases hstep
        case isFalse =>
          split at hstep <;> cases hstep
          exact goes_same rfl rfl
    | logout token now =>
      simp only [AuthDb.logout] at hstep
      split at hstep <;> cases hstep
      exact goes_same rfl rfl
    | commit i now =>
      simp only [AuthDb.commit] at hstep
      split at hstep
      case h_1 =>
        cases hstep
        refine ⟨Int.le_refl _, fun place row hrow => ⟨row, ?_, rfl, id⟩⟩
        rw [← hrow]
        exact List.getElem?_append_left (List.getElem?_eq_some_iff.1 hrow).1
      case h_2 =>
        cases hstep
        exact goes_revokeAt rfl rfl
      case h_3 =>
        cases hstep
        exact goes_revokeAt rfl rfl
      case h_4 => cases hstep
    | rollback i now =>
      obtain ⟨t, -, rfl⟩ := Option.map_eq_some_iff.1 hstep
      exact goes_same rfl rfl
    | lookup token now =>
      cases hstep
      exact Goes.refl _

theorem activeSession_live {token : String}
    (h : s.activeSession secrets token = some (row, user)) :
    row ∈ s.sessions ∧ s.live row = true := by
  unfold AuthDb.activeSession at h
  obtain ⟨found, hfound, hbind⟩ := Option.bind_eq_some_iff.1 h
  obtain ⟨u, -, heq⟩ := Option.map_eq_some_iff.1 hbind
  cases heq
  have hselected := List.find?_some hfound
  exact ⟨List.mem_of_find?_eq_some hfound,
    (Bool.and_eq_true_iff.1 hselected).2⟩

theorem Goes.neverAgain (h : Goes s s') :
    NeverAgain secrets s s' := by
  intro place row hrow hdead token row' user haccepted hplace
  obtain ⟨-, hlive⟩ := activeSession_live haccepted
  obtain ⟨row'', hrow'', hexpires, hrevoked⟩ := h.kept place row hrow
  cases hplace.symm.trans hrow''
  unfold AuthDb.live at hdead hlive
  simp only [Bool.and_eq_true, decide_eq_true_eq] at hlive
  obtain ⟨hunrevoked, hunexpired⟩ := hlive
  rw [hexpires] at hunexpired
  have hgood := Int.lt_of_le_of_lt h.now hunexpired
  cases hr : row.revokedAt with
  | none => simp [hr, hgood] at hdead
  | some t =>
    have := hrevoked (by rw [hr]; rfl)
    rw [Option.isNone_iff_eq_none] at hunrevoked
    rw [hunrevoked] at this
    cases this

theorem sealed_start (users : List User) (now : Int) :
    Sealed (.start users now) := by
  refine ⟨fun i j t u id hi => ?_, fun i user hash moment remaining revoked hi =>
    ?_, fun row hrow => absurd hrow List.not_mem_nil,
    fun i user lastLoginAt row hi => ?_⟩
  all_goals exact absurd hi (by simp [AuthDb.start])

/-- Once a reset has committed, no session opened against an earlier hash is
accepted, if no login commits one after it; and what was revoked or expired
is never accepted again. -/
theorem access_ended (secrets : Secrets) (users : List User) (now : Int)
    (steps : List SessionStep)
    (htimely : (AuthDb.machine secrets).EveryStep Timely (.start users now)
      steps) :
    (AuthDb.machine secrets).Always (EarlierRefused secrets)
        (.start users now) steps
      ∧ ∀ before between s s' evs evs',
        (AuthDb.machine secrets).run (.start users now) before
          = some (s, evs) →
        (AuthDb.machine secrets).run s between = some (s', evs') →
        NeverAgain secrets s s' := by
  constructor
  · have hstep : ∀ s a s' es, Sealed s →
        (AuthDb.machine secrets).step s a = some (s', es) → Timely s a →
        Sealed s' := by
      intro s a s' es h hstep hc
      obtain ⟨t, ht, hts⟩ := Option.map_eq_some_iff.1 hstep
      cases hts
      exact h.step ht hc
    refine (Machine.always_of_everyStep hstep (sealed_start users now)
      htimely).mono ?_
    intro s h token row user haccepted
    obtain ⟨hrow, hlive⟩ := activeSession_live haccepted
    exact h.fresh row hrow hlive
  · intro before between s s' evs evs' _ hrun
    refine Goes.neverAgain ?_
    refine Machine.run_invariant ?_ (Goes.refl s) hrun
    intro s₁ a s₂ es h hstep
    obtain ⟨t, ht, hts⟩ := Option.map_eq_some_iff.1 hstep
    cases hts
    exact h.trans (goes_step ht)

/-- A hash is the password, and a token its own hash. -/
def plainSecrets : Secrets where
  verify hash password := decide (hash = String.ofList password)
  hashToken token := token
  unicode := Unicode.ascii

/-- One account. -/
def oneUser : List User := [⟨1, "owner@home".toList, "first", none⟩]

/-- A login, a reset, and a login with the new password. -/
def inTurn : List SessionStep := [
  .login "owner@home".toList "first".toList 1, .flush 0 1, .issue 0 "a" 1,
  .commit 0 2,
  .reset "owner@home".toList "a longer password".toList "second" 3,
  .rehash 1 3, .revoke 1 3, .revokeNext 1 3, .commit 1 4,
  .login "owner@home".toList "second".toList 5, .flush 2 5, .issue 2 "b" 5,
  .commit 2 6, .lookup "b" 7]

/-- For a reset between two logins. -/
theorem access_ended_inTurn :
    (AuthDb.machine plainSecrets).Always (EarlierRefused plainSecrets)
        (.start oneUser 0) inTurn
      ∧ ∀ before between s s' evs evs',
        (AuthDb.machine plainSecrets).run (.start oneUser 0) before
          = some (s, evs) →
        (AuthDb.machine plainSecrets).run s between = some (s', evs') →
        NeverAgain plainSecrets s s' :=
  access_ended plainSecrets oneUser 0 inTurn (by decide +kernel)

-- ------ example a login around a reset

/-- A login reads the account, a reset runs, and the login goes on. -/
def around : List SessionStep := [
  .login "owner@home".toList "first".toList 1,
  .reset "owner@home".toList "a longer password".toList "second" 2,
  .rehash 1 2, .revoke 1 2, .commit 1 2,
  .flush 0 3, .issue 0 "a" 3, .commit 0 3, .lookup "a" 4]

/-- The session is accepted, and was opened with the earlier password. -/
theorem not_access_ended :
    ¬ ∀ (secrets : Secrets) (users : List User) (now : Int)
      (steps : List SessionStep),
      (AuthDb.machine secrets).Always (EarlierRefused secrets)
        (.start users now) steps := by
  intro hall
  have hrun : ((AuthDb.machine plainSecrets).run (.start oneUser 0)
      around).map (fun r => (r.1.activeSession plainSecrets "a").map fun found =>
        (found.1.checked, r.1.resets found.1.userId)) = some (some (0, 1)) := by
    decide +kernel
  obtain ⟨⟨s, evs⟩, hs, hfound⟩ := Option.map_eq_some_iff.1 hrun
  obtain ⟨⟨row, user⟩, haccepted, hcounts⟩ := Option.map_eq_some_iff.1 hfound
  obtain ⟨hchecked, hresets⟩ := Prod.mk.inj hcounts
  have hsame := (hall plainSecrets oneUser 0 around).last hs "a" row user
    haccepted
  rw [hchecked, hresets] at hsame
  cases hsame

end Accounts

end MemoryOS
