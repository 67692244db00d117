/-
Wrong passwords (`security/keystore/keystore.cpp`, `UserState::readMasterKey`).

A user who is locked has four tries; `readMasterKey` counts them down, and the call after the last
one is to reset the user for good.  It calls `UserState::reset`, which removes the keys of the
user's apps.  The file with the master key begins with a dot and is skipped, and neither the state
nor the counter is changed; `KeyStore::reset` does more, but is not what is called.

* `attempts` — calls of `readMasterKey`, one after the other;
* `LocksOut` — what is wanted of calls with wrong passwords;
* `locksOut_iff` — it holds exactly for those that do not use up the tries.
-/
import AndroidSystem.Keystore.Users

open Mem

namespace Keystore

section LockOut

variable {κ : Type}

/-- A call of `readMasterKey`: the password, and what the system does in the call. -/
structure Attempt (κ : Type) where
  pw : List UInt8
  env : Env κ

/-- Passwords one after the other, with what they return. -/
def attempts (M : Machine κ) : List (Attempt κ) → UserState κ → Dir →
    Except Fault (UserState κ × Dir × List ResponseCode)
  | [], u, dir => .ok (u, dir, [])
  | a :: as, u, dir => do
    let (u, dir, response) ← u.readMasterKey M a.env a.pw dir
    let (u, dir, responses) ← attempts M as u dir
    .ok (u, dir, response :: responses)

/-- The salt at the end of a file with a master key. -/
def saltOf (file : List UInt8) : Option (List UInt8) :=
  let rawFile := file.take sizeofBlob
  if 16 < rawFile.length ∧ rawFile[infoAt]? = some 16 then
    some (rawFile.drop (rawFile.length - 16)) else none

/-- The file can be read, and the password does not open it. -/
def rejects (M : Machine κ) (file : List UInt8) (a : Attempt κ) : Bool :=
  (a.env.read 0).opened && (a.env.read 0).closed &&
    match readBlob M.crypto (M.aesKey (UserState.generateKeyFromPassword M a.pw (saltOf file)))
      .noError (a.env.read 1) (some file) (rawBlob (a.env.memory 1)) with
    | .ok (response, blob) =>
      decide (response ≠ .systemError) &&
        !(decide (response = .noError) && decide (blob.mem.word lengthAt = 16))
    | .error _ => false

/-- The master key that some password opens the file with. -/
def Opens (M : Machine κ) (u : UserState κ) (dir : Dir) (key : Vector UInt8 16) : Prop :=
  ∃ a : Attempt κ, ∃ u' dir', u.readMasterKey M a.env a.pw dir = .ok (u', dir', .noError) ∧
    u'.mMasterKey = key

/-- What is wanted of wrong passwords: the calls count the tries, and once there are none left, the
user has no master key, and no password brings the old one back. -/
def LocksOut (M : Machine κ) (u : UserState κ) (dir : Dir) (as : List (Attempt κ)) : Prop :=
  ∃ u' dir' responses, attempts M as u dir = .ok (u', dir', responses) ∧
    responses.take 5 = [.wrongPassword3, .wrongPassword2, .wrongPassword1, .wrongPassword0,
      .uninitialized].take as.length ∧
    (5 ≤ as.length → u'.mState = .uninitialized ∧
      ∀ key, Opens M u dir key → ∀ (later : List (Attempt κ)) u'' dir'' responses',
        attempts M later u' dir' = .ok (u'', dir'', responses') →
          ¬ (u''.mState = .noError ∧ u''.mMasterKey = key))

/-! ### Counting -/

variable {M : Machine κ} {u : UserState κ} {dir : Dir} {file : List UInt8}

theorem readMasterKey_rejected {a : Attempt κ} (hfile : dir .masterKey = some file)
    (hr : rejects M file a = true) :
    u.readMasterKey M a.env a.pw dir = .ok (UserState.wrongPassword a.env u dir) := by
  rw [rejects, Bool.and_eq_true, Bool.and_eq_true] at hr
  obtain ⟨⟨hopened, hclosed⟩, hread⟩ := hr
  rw [UserState.readMasterKey, hfile]
  dsimp only
  rw [if_neg (by rw [hopened, hclosed]; decide)]
  cases hblob : readBlob M.crypto
      (M.aesKey (UserState.generateKeyFromPassword M a.pw (saltOf file))) .noError (a.env.read 1)
      (some file) (rawBlob (a.env.memory 1)) with
  | error e =>
    rw [hblob] at hread
    cases hread
  | ok r =>
    obtain ⟨response, blob⟩ := r
    rw [hblob] at hread
    simp only [Bool.and_eq_true, decide_eq_true_eq, Bool.not_eq_true', Bool.and_eq_false_iff,
      decide_eq_false_iff_not] at hread
    rw [saltOf] at hblob
    rw [hblob, ok_bind]
    dsimp only
    rw [if_neg hread.1, if_neg (not_and_or.mpr hread.2)]

/-- The answers to `n` wrong passwords, if there are `tries` tries. -/
def countdown : ℕ → ℕ → List ResponseCode
  | _, 0 => []
  | 0, n + 1 => .uninitialized :: countdown 0 n
  | tries + 1, n + 1 =>
    (if tries = 0 then .wrongPassword0
      else if tries = 1 then .wrongPassword1
      else if tries = 2 then .wrongPassword2
      else .wrongPassword3) :: countdown tries n

variable {as : List (Attempt κ)} (hfile : dir .masterKey = some file)
  (hr : ∀ a ∈ as, rejects M file a = true)

include hfile hr in
/-- **Wrong passwords** change nothing but the counter and the files of the user's apps. -/
theorem attempts_rejected {tries : ℕ} (htries : u.mRetry = tries) :
    ∃ dir', attempts M as u dir =
        .ok ({ u with mRetry := (tries - as.length : ℕ) }, dir', countdown tries as.length) ∧
      dir' .masterKey = some file := by
  induction as generalizing u dir tries with
  | nil =>
    refine ⟨dir, ?_, hfile⟩
    rw [attempts, List.length_nil, Nat.sub_zero, ← htries]
    cases tries <;> rfl
  | cons a as ih =>
    have hr' : ∀ a ∈ as, rejects M file a = true := fun a ha => hr a (List.mem_cons_of_mem _ ha)
    rw [attempts, readMasterKey_rejected hfile (hr a List.mem_cons_self), ok_bind,
      UserState.wrongPassword, htries]
    cases tries with
    | zero =>
      -- the files of the apps are removed, and there are still no tries
      have hsame : (UserState.reset a.env u dir).1 .masterKey = some file := by
        rw [UserState.reset]
        split <;> exact hfile
      obtain ⟨dir', hrun, hfile'⟩ := ih hsame hr' htries
      refine ⟨dir', ?_, hfile'⟩
      simp only [Nat.cast_zero, le_refl, if_true, hrun, ok_bind, List.length_cons, Nat.zero_sub,
        countdown]
    | succ tries =>
      have hpos : ¬ ((tries + 1 : ℕ) : ℤ) ≤ 0 := by omega
      have hless : ((tries + 1 : ℕ) : ℤ) - 1 = tries := by omega
      obtain ⟨dir', hrun, hfile'⟩ := ih (u := { u with mRetry := tries }) hfile hr' rfl
      refine ⟨dir', ?_, hfile'⟩
      simp only [if_neg hpos, hless, hrun, ok_bind, List.length_cons, Nat.add_sub_add_right,
        countdown]
      norm_cast

/-! ### Locking out -/

include hfile hr in
theorem not_locksOut (hstate : u.mState = .locked) (hretry : u.mRetry = maxRetry)
    (hlong : 4 < as.length) : ¬ LocksOut M u dir as := by
  rintro ⟨u', dir'', responses, hrun', -, hlocked⟩
  obtain ⟨dir', hrun, -⟩ := attempts_rejected hfile hr (show u.mRetry = (4 : ℕ) from hretry)
  rw [hrun] at hrun'
  cases hrun'
  have hno := (hlocked hlong).1
  rw [hstate] at hno
  cases hno

/-- **A user is locked out** as wanted exactly if the tries are not used up. -/
theorem locksOut_iff (M : Machine κ) (u : UserState κ) (dir : Dir) (file : List UInt8)
    (as : List (Attempt κ)) (hstate : u.mState = .locked) (hretry : u.mRetry = maxRetry)
    (hfile : dir .masterKey = some file) (hr : ∀ a ∈ as, rejects M file a = true) :
    LocksOut M u dir as ↔ as.length ≤ 4 := by
  constructor
  · intro hlocks
    by_contra hlong
    exact not_locksOut hfile hr hstate hretry (by omega) hlocks
  · intro hshort
    obtain ⟨dir', hrun, -⟩ := attempts_rejected hfile hr (show u.mRetry = (4 : ℕ) from hretry)
    refine ⟨_, dir', _, hrun, ?_, fun hlong => absurd hlong (by omega)⟩
    generalize as.length = n at hshort
    interval_cases n <;> rfl

end LockOut

/-! ### An example -/

/-- Encryption by a byte, which is the first of the password. -/
def byteMachine : Machine UInt8 where
  crypto :=
    { encrypt := fun key _ data => data.map (· ^^^ key)
      decrypt := fun key _ data => data.map (· ^^^ key)
      md5 := fun _ => List.replicate 16 0
      length_encrypt := fun _ _ _ => List.length_map _
      length_decrypt := fun _ _ _ => List.length_map _
      length_md5 := plainCrypto.length_md5
      decrypt_encrypt := fun key _ data _ => by
        rw [List.map_map]
        conv_rhs => rw [← List.map_id data]
        refine List.map_congr_left fun x _ => ?_
        show (x ^^^ key) ^^^ key = x
        rw [UInt8.xor_assoc, UInt8.xor_self, UInt8.xor_zero] }
  aesKey v := v.toList.headD 0
  zeroKey := 0
  pbkdf2 pw _ := Vector.replicate 16 (pw.headD 0)
  pkcs8 _ := none
  importSupported := false
  importKeypair _ := none
  opensslImportKeypair _ := none
  newDevice := false

/-- A system in which everything succeeds. -/
def byteEnv : Env UInt8 where
  made := true
  readable := true
  random := some (Vector.replicate 16 1, Vector.replicate 16 2)
  salt := none
  raw := (.noError, Vector.replicate 16 0, Vector.replicate 16 0, 0, 0)
  memory _ _ := 0
  read _ := ⟨true, true⟩
  write _ := smooth
  opened := true
  unlinked _ := true

/-- A user who is locked. -/
def lockedUser : UserState UInt8 :=
  ⟨0, .locked, maxRetry, Vector.replicate 16 0, Vector.replicate 16 0, 0, 0⟩

/-- The file that is written for a user whose password is 7 and whose master key is made of ones. -/
def masterKeyFile : List UInt8 :=
  match lockedUser.initializeWith byteMachine byteEnv [7] fun _ => none with
  | .ok (_, dir, _) => (dir .masterKey).getD []
  | .error _ => []

/-- A directory with one file. -/
def oneFile : Dir
  | .masterKey => some masterKeyFile
  | .key _ _ => none

theorem locksOut_iff_twice :
    LocksOut byteMachine lockedUser oneFile [⟨[5], byteEnv⟩, ⟨[6], byteEnv⟩] :=
  (locksOut_iff byteMachine lockedUser oneFile masterKeyFile _ rfl rfl rfl
    (by decide +kernel)).mpr (by decide)

/-- **The old password brings the old key back**: after five wrong passwords the user is locked, and
the sixth call unlocks. -/
theorem lockOut_undone :
    ¬ LocksOut byteMachine lockedUser oneFile (List.replicate 5 ⟨[5], byteEnv⟩) ∧
    (do
      let (u, dir, responses) ←
        attempts byteMachine (List.replicate 5 ⟨[5], byteEnv⟩) lockedUser oneFile
      let (u', _, response) ← u.readMasterKey byteMachine byteEnv [7] dir
      .ok (responses, u.mState, response, u'.mState, u'.mMasterKey)) =
      (.ok ([.wrongPassword3, .wrongPassword2, .wrongPassword1, .wrongPassword0, .uninitialized],
        .locked, .noError, .noError, Vector.replicate 16 1) :
        Except Fault (List ResponseCode × State × ResponseCode × State × Vector UInt8 16)) := by
  refine ⟨not_locksOut (show oneFile .masterKey = some masterKeyFile from rfl) ?_ rfl rfl
    (by decide), by decide +kernel⟩
  intro a ha
  rw [List.eq_of_mem_replicate ha]
  decide +kernel

end Keystore
