/-
The users of the keystore (`security/keystore/keystore.cpp`, classes `UserState` and
`KeyStore`).

Every user has a state, a retry counter, a master key and a directory with files: the master
key, encrypted with the password, and the keys of the user's apps.  `KeyStore`
finds the user of a uid with `getUserState`, which makes one if there is none.

* A `UserState` works on its own directory, so that its functions take that directory and
  return it.  The key files of `get` and `put` are those that their callers name with
  `getKeyNameForUidWithDir`, in the directory of the user of the uid.
* Cryptography and the keymaster device are parameters (`Machine`).
* What else a call depends on comes with it (`Env`): random numbers, outcomes of system
  calls, and what is in memory that was not written.

`writeMasterKey` and `readMasterKey` of `KeyStore` translate the uid twice and so work for
user 0.  `isolated_iff` says that a call concerns only its own user exactly if it
is none of these two, or is made for user 0, and that among calls that do, the
results of a user's calls do not depend on the calls of others.
-/
import AndroidSystem.Keystore.BlobFile

open CInt Mem Option

namespace Keystore

/-! ### Users -/

/-- The files in the directory of a user. -/
inductive Name
  | masterKey
  | key (uid : ℕ) (encoded : List UInt8)
  deriving DecidableEq

/-- The files of a directory. -/
abbrev Dir := Name → Option (List UInt8)

/-- A file is written, or it could not be. -/
def Dir.write (dir : Dir) (name : Name) : Option (List UInt8) → Dir
  | none => dir
  | some file => Function.update dir name (some file)

/-- What the keystore runs on.  `aesKey` is `AES_set_encrypt_key` and `AES_set_decrypt_key`, with
the keys that are left when their memory is zeroed. -/
structure Machine (κ : Type) where
  crypto : Crypto κ
  aesKey : Vector UInt8 16 → κ
  zeroKey : κ
  pbkdf2 : List UInt8 → List UInt8 → Vector UInt8 16
  pkcs8 : List UInt8 → Option (List UInt8)
  importSupported : Bool
  importKeypair : List UInt8 → Option (List UInt8)
  opensslImportKeypair : List UInt8 → Option (List UInt8)
  /-- The device has version 0.2 or later. -/
  newDevice : Bool

/-- What the system does in a call.  The blobs that are read and written, and the memory of blobs
that are made, are numbered. -/
structure Env (κ : Type) where
  made : Bool
  readable : Bool
  random : Option (Vector UInt8 16 × Vector UInt8 16)
  salt : Option (Vector UInt8 16)
  raw : State × Vector UInt8 16 × Vector UInt8 16 × κ × κ
  memory : ℕ → Mem
  read : ℕ → ReadEnv
  write : ℕ → WriteEnv
  opened : Bool
  unlinked : Name → Bool

/-- `class UserState` -/
structure UserState (κ : Type) where
  mUserId : ℕ
  mState : State
  mRetry : ℤ
  mMasterKey : Vector UInt8 16
  mSalt : Vector UInt8 16
  mMasterKeyEncryption : κ
  mMasterKeyDecryption : κ

/-- `AID_USER` -/
def aidUser : ℕ := 100000

/-- `get_user_id` -/
def getUserId (uid : ℕ) : ℕ := uid / aidUser

/-- `MAX_RETRY` -/
def maxRetry : ℤ := 4

section UserStates

variable {κ : Type} (M : Machine κ) (env : Env κ)

namespace UserState

/-- `setState` -/
def setState (state : State) (u : UserState κ) : UserState κ :=
  if state = .noError ∨ state = .uninitialized then { u with mState := state, mRetry := maxRetry }
  else { u with mState := state }

/-- The constructor and `initialize`; the keys are not set, and without a directory the state is
not either. -/
def create (userId : ℕ) (dir : Dir) : UserState κ :=
  let (state, masterKey, salt, encryption, decryption) := env.raw
  let u : UserState κ := ⟨userId, state, maxRetry, masterKey, salt, encryption, decryption⟩
  if ¬ env.made then u
  else if (dir .masterKey).isSome ∧ env.readable then u.setState .locked
  else u.setState .uninitialized

/-- `zeroizeMasterKeysInMemory` -/
def zeroizeMasterKeysInMemory (u : UserState κ) : UserState κ :=
  { u with
    mMasterKey := Vector.replicate 16 0
    mSalt := Vector.replicate 16 0
    mMasterKeyEncryption := M.zeroKey
    mMasterKeyDecryption := M.zeroKey }

/-- `setupMasterKeys` -/
def setupMasterKeys (u : UserState κ) : UserState κ :=
  setState .noError { u with
    mMasterKeyEncryption := M.aesKey u.mMasterKey
    mMasterKeyDecryption := M.aesKey u.mMasterKey }

/-- `generateKeyFromPassword` -/
def generateKeyFromPassword (pw : List UInt8) : Option (List UInt8) → Vector UInt8 16
  | some salt => M.pbkdf2 pw salt
  -- the characters of "keystore", with the one that ends them
  | none => M.pbkdf2 pw [107, 101, 121, 115, 116, 111, 114, 101, 0]

/-- `writeMasterKey` -/
def writeMasterKey (pw : List UInt8) (u : UserState κ) (dir : Dir) :
    Except Fault (ResponseCode × Dir) := do
  let passwordKey := generateKeyFromPassword M pw (some u.mSalt.toList)
  let blob ← createBlob (env.memory 0) u.mMasterKey.toList u.mSalt.toList typeMasterKey
  let (response, _, file) ←
    writeBlob M.crypto (M.aesKey passwordKey) .noError (env.write 0) blob
  .ok (response, dir.write .masterKey file)

/-- `initialize` with a password. -/
def initializeWith (pw : List UInt8) (u : UserState κ) (dir : Dir) :
    Except Fault (UserState κ × Dir × ResponseCode) :=
  match env.random with
  | none => .ok (u, dir, .systemError)
  | some (masterKey, salt) => do
    let u := { u with mMasterKey := masterKey, mSalt := salt }
    let (response, dir) ← writeMasterKey M env pw u dir
    if response ≠ .noError then .ok (u, dir, response)
    else .ok (setupMasterKeys M u, dir, .noError)

/-- `reset`: the key files of the user's own apps are removed. -/
def reset (u : UserState κ) (dir : Dir) : Dir × Bool :=
  if ¬ env.opened then (dir, false)
  else
    (fun name =>
      match name with
      | .masterKey => dir name
      | .key uid encoded =>
        if encoded ≠ [] ∧ getUserId uid = u.mUserId ∧ env.unlinked name then none else dir name,
      true)

/-- The answer to a wrong password. -/
def wrongPassword (u : UserState κ) (dir : Dir) : UserState κ × Dir × ResponseCode :=
  if u.mRetry ≤ 0 then (u, (reset env u dir).1, .uninitialized)
  else
    let retry := u.mRetry - 1
    ({ u with mRetry := retry }, dir,
      if retry = 0 then .wrongPassword0
      else if retry = 1 then .wrongPassword1
      else if retry = 2 then .wrongPassword2
      else .wrongPassword3)

/-- `readMasterKey` -/
def readMasterKey (pw : List UInt8) (u : UserState κ) (dir : Dir) :
    Except Fault (UserState κ × Dir × ResponseCode) :=
  match dir .masterKey with
  | none => .ok (u, dir, .systemError)
  | some file =>
    if ¬ (env.read 0).opened ∨ ¬ (env.read 0).closed then .ok (u, dir, .systemError)
    else do
      let rawFile := file.take sizeofBlob
      -- the salt is at the end of the file, if there is one
      let salt := if 16 < rawFile.length ∧ rawFile[infoAt]? = some 16 then
        some (rawFile.drop (rawFile.length - 16)) else none
      let passwordKey := generateKeyFromPassword M pw salt
      let (response, blob) ← readBlob M.crypto (M.aesKey passwordKey) .noError (env.read 1)
        (dir .masterKey) (rawBlob (env.memory 1))
      if response = .systemError then .ok (u, dir, response)
      else if response = .noError ∧ blob.mem.word lengthAt = 16 then
        let masterKey : Vector UInt8 16 := Vector.ofFn fun i => blob.mem (valueAt + i)
        match salt with
        | some _ => .ok (setupMasterKeys M { u with mMasterKey := masterKey }, dir, .noError)
        | none =>
          match env.salt with
          | none => .ok (u, dir, .systemError)
          | some salt => do
            let u := { u with mSalt := salt }
            -- the file is written with the key that was in memory before
            let (response, dir) ← writeMasterKey M env pw u dir
            if response = .noError then
              .ok (setupMasterKeys M { u with mMasterKey := masterKey }, dir, response)
            else .ok (u, dir, response)
      else .ok (wrongPassword env u dir)

/-- `put` into the file `name`. -/
def put (u : UserState κ) (i : ℕ) (name : Name) (blob : Buffer) (dir : Dir) :
    Except Fault (ResponseCode × Buffer × Dir) := do
  let (response, blob, file) ←
    writeBlob M.crypto u.mMasterKeyEncryption u.mState (env.write i) blob
  .ok (response, blob, dir.write name file)

/-- `TYPE_KEY_PAIR` -/
def typeKeyPair : UInt8 := 3

/-- `importKey` -/
def importKey (u : UserState κ) (i : ℕ) (key : List UInt8) (name : Name) (encrypted : Bool)
    (dir : Dir) : Except Fault (ResponseCode × Dir) :=
  if ¬ M.importSupported then .ok (.systemError, dir)
  else
    let imported : Option (List UInt8 × Bool) :=
      match M.importKeypair key with
      | some data => some (data, false)
      | none => if M.newDevice then none else (M.opensslImportKeypair key).map fun d => (d, true)
    match imported with
    | none => .ok (.systemError, dir)
    | some (data, fallback) => do
      let blob ← createBlob (env.memory i) data [] typeKeyPair
      let (response, _, dir) ←
        put M env u i name (setFallback fallback (setEncrypted encrypted blob)) dir
      .ok (response, dir)

/-- What a blob is made of: response, blob and directory. -/
abbrev Got := ResponseCode × Buffer × Dir

/-- `importBlobAsKey`; `again` is `get` of the same file as a key pair. -/
def importBlobAsKey (u : UserState κ) (i : ℕ) (name : Name)
    (again : Buffer → Dir → Except Fault Got) (blob : Buffer) (dir : Dir) :
    Except Fault (Buffer × Dir) :=
  match M.pkcs8 (contents blob).value with
  | none => .ok (blob, dir)
  | some key => do
    let (response, dir) ← importKey M env u i key name (isEncrypted blob) dir
    if response ≠ .noError then .ok (blob, dir)
    else do
      let (_, blob, dir) ← again blob dir
      .ok (blob, dir)

/-- `upgradeBlob` of a blob of an old version, with the version it has then. -/
def upgradeBlob (u : UserState κ) (i : ℕ) (name : Name) (type : UInt8)
    (again : Buffer → Dir → Except Fault Got) (blob : Buffer) (dir : Dir) :
    Except Fault (Buffer × Dir) := do
  let (blob, dir) ←
    if blob.mem versionAt = 0 then
      let blob := blob.put typeAt [type]
      if type = typeKeyPair then importBlobAsKey M env u i name again blob dir else .ok (blob, dir)
    else .ok (blob, dir)
  .ok ((setEncrypted true blob).put versionAt [2], dir)

/-- The end of `get`: an import into the device, and the comparison of the types. -/
def finishGet (u : UserState κ) (i : ℕ) (name : Name) (type : UInt8)
    (again : Buffer → Dir → Except Fault Got) (blob : Buffer) (dir : Dir) : Except Fault Got := do
  let (response, blob, dir) ←
    if type = typeKeyPair ∧ M.newDevice ∧ isFallback blob then do
      let (response, dir) ←
        importKey M env u i (contents blob).value name (isEncrypted blob) dir
      if response = .noError then again blob dir else .ok (.noError, blob, dir)
    else .ok (.noError, blob, dir)
  if type ≠ 0 ∧ blob.mem typeAt ≠ type then .ok (.keyNotFound, blob, dir)
  else .ok (response, blob, dir)

/-- `get` of the file `name`.  A key that was imported by a new device is not imported again, so
that `get` calls itself at most once within itself. -/
def get (u : UserState κ) (name : Name) : ℕ → UInt8 → Buffer → Dir → Except Fault Got
  | 0, _, blob, dir => .ok (.systemError, blob, dir)
  | n + 1, type, blob, dir => do
    let (response, blob) ← readBlob M.crypto u.mMasterKeyDecryption u.mState (env.read (4 * n))
      (dir name) blob
    if response ≠ .noError then .ok (response, blob, dir)
    else if blob.mem versionAt < currentBlobVersion then do
      let (blob, dir) ← upgradeBlob M env u (4 * n) name type (get u name n typeKeyPair) blob dir
      let (response, blob, dir) ← put M env u (4 * n + 1) name blob dir
      if response ≠ .noError then .ok (response, blob, dir)
      else do
        let (response, blob) ← readBlob M.crypto u.mMasterKeyDecryption u.mState
          (env.read (4 * n + 1)) (dir name) blob
        if response ≠ .noError then .ok (response, blob, dir)
        else finishGet M env u (4 * n + 2) name type (get u name n typeKeyPair) blob dir
    else finishGet M env u (4 * n + 2) name type (get u name n typeKeyPair) blob dir

end UserState

end UserStates

/-! ### The keystore -/

/-- The users and their directories. -/
structure Store (κ : Type) where
  mMasterKeys : List (UserState κ)
  dirs : ℕ → Dir

/-- A call, with the uid it is made for and what the system does in it. -/
inductive Request
  | initializeUser (pw : List UInt8)
  | writeMasterKey (pw : List UInt8)
  | readMasterKey (pw : List UInt8)
  | lock
  | reset
  | put (keyName : List UInt8) (blob : Buffer)
  | get (keyName : List UInt8) (type : UInt8)

/-- A call, with the uid that made it and what the system answers to it. -/
structure Call (κ : Type) where
  uid : ℕ
  request : Request
  env : Env κ

/-- What a call returns: nothing, a code, or a code with a blob. -/
inductive Answer
  | void
  | flag (b : Bool)
  | code (response : ResponseCode)
  | blob (response : ResponseCode) (contents : Contents)
  deriving DecidableEq

/-- What a call does to a user and the user's directory. -/
abbrev Op (κ : Type) := UserState κ → Dir → Except Fault (UserState κ × Dir × Answer)

section KeyStores

variable {κ : Type} (M : Machine κ)

/-- What is done with the user that a call has found. -/
def op (c : Call κ) : Op κ := fun u dir =>
  match c.request with
  | .initializeUser pw => do
    let (u, dir, response) ← u.initializeWith M c.env pw dir
    .ok (u, dir, .code response)
  | .writeMasterKey pw => do
    let (response, dir) ← u.writeMasterKey M c.env pw dir
    .ok (u, dir, .code response)
  | .readMasterKey pw => do
    let (u, dir, response) ← u.readMasterKey M c.env pw dir
    .ok (u, dir, .code response)
  | .lock => .ok ((u.zeroizeMasterKeysInMemory M).setState .locked, dir, .void)
  | .reset =>
    let u := (u.zeroizeMasterKeysInMemory M).setState .uninitialized
    let (dir, done) := u.reset c.env dir
    .ok (u, dir, .flag done)
  | .put keyName blob => do
    let (response, _, dir) ← u.put M c.env 0 (.key c.uid keyName) blob dir
    .ok (u, dir, .code response)
  | .get keyName type => do
    let (response, blob, dir) ←
      u.get M c.env (.key c.uid keyName) 2 type (rawBlob (c.env.memory 9)) dir
    .ok (u, dir, .blob response (contents blob))

/-- The uid that a call gives to `getUserState`. -/
def lookupUid (c : Call κ) : ℕ :=
  match c.request with
  | .writeMasterKey _ => getUserId c.uid
  | .readMasterKey _ => getUserId c.uid
  | _ => c.uid

/-- `getUserState`: the user of a uid, who is made if there is none. -/
def getUserState (env : Env κ) (uid : ℕ) (s : Store κ) : UserState κ × Store κ :=
  match s.mMasterKeys.find? fun u => u.mUserId = getUserId uid with
  | some u => (u, s)
  | none =>
    let u := UserState.create env (getUserId uid) (s.dirs (getUserId uid))
    (u, { s with mMasterKeys := s.mMasterKeys ++ [u] })

/-- One call. -/
def exec (s : Store κ) (c : Call κ) : Except Fault (Store κ × Answer) := do
  let (u, s) := getUserState c.env (lookupUid c) s
  let (u', dir, answer) ← op M c u (s.dirs u.mUserId)
  .ok (⟨s.mMasterKeys.map fun x => if x.mUserId = u.mUserId then u' else x,
    Function.update s.dirs u.mUserId dir⟩, answer)

/-- The answers of a list of calls, if all of them come to an end. -/
def answers : Store κ → List (Call κ) → Except Fault (List Answer)
  | _, [] => .ok []
  | s, c :: cs => do
    let (s, answer) ← exec M s c
    let rest ← answers s cs
    .ok (answer :: rest)

end KeyStores

/-! ### Isolation -/

section Isolation

variable {κ : Type} {M : Machine κ} {s s' : Store κ} {c : Call κ} {cs : List (Call κ)}

/-- The user that a call is made for. -/
def user (c : Call κ) : ℕ := getUserId c.uid

/-- Two keystores are the same for a user. -/
def Same (v : ℕ) (s s' : Store κ) : Prop :=
  s.mMasterKeys.find? (fun u => u.mUserId = v) = s'.mMasterKeys.find? (fun u => u.mUserId = v) ∧
    s.dirs v = s'.dirs v

/-- The call reads and changes what belongs to its own user only: in keystores that are the same
for the user it does the same, and for all others nothing. -/
def Isolated (M : Machine κ) (c : Call κ) : Prop :=
  ∀ s s' s₁ answer, Same (user c) s s' → exec M s c = .ok (s₁, answer) →
    (∃ s₁', exec M s' c = .ok (s₁', answer) ∧ Same (user c) s₁ s₁') ∧
      ∀ v, v ≠ user c → Same v s s₁

/-- The call does not translate its uid twice, or it does not matter. -/
def Direct (c : Call κ) : Prop :=
  match c.request with
  | .writeMasterKey _ => user c = 0
  | .readMasterKey _ => user c = 0
  | _ => True

theorem direct_iff (c : Call κ) : Direct c ↔ getUserId (lookupUid c) = user c := by
  have htwice : user c = 0 ↔ getUserId (getUserId c.uid) = user c := by
    simp only [user, getUserId, aidUser]
    omega
  rw [Direct, lookupUid]
  split <;> simp_all [user]

namespace UserState

variable {env : Env κ} {u : UserState κ}

@[simp] theorem setState_mUserId (state : State) (u : UserState κ) :
    (u.setState state).mUserId = u.mUserId := by
  rw [setState]
  split <;> rfl

theorem create_mUserId (env : Env κ) (userId : ℕ) (dir : Dir) :
    (create env userId dir).mUserId = userId := by
  rw [create]
  split
  split
  · rfl
  · split <;> rw [setState_mUserId]

variable {dir' : Dir} {pw : List UInt8} {dir : Dir} {u' : UserState κ} {response : ResponseCode}

theorem initializeWith_mUserId (h : initializeWith M env pw u dir = .ok (u', dir', response)) :
    u'.mUserId = u.mUserId := by
  rw [initializeWith] at h
  split at h
  · cases h
    rfl
  · obtain ⟨⟨written, dir₁⟩, -, h⟩ := bind_eq_ok h
    dsimp only at h
    split at h <;> cases h
    · rfl
    · exact setState_mUserId _ _

theorem wrongPassword_mUserId (u : UserState κ) (dir : Dir) :
    (wrongPassword env u dir).1.mUserId = u.mUserId := by
  rw [wrongPassword]
  split <;> rfl

theorem readMasterKey_mUserId (h : readMasterKey M env pw u dir = .ok (u', dir', response)) :
    u'.mUserId = u.mUserId := by
  rw [readMasterKey] at h
  split at h
  · cases h
    rfl
  · split at h
    · cases h
      rfl
    · obtain ⟨⟨read, blob⟩, -, h⟩ := bind_eq_ok h
      dsimp only at h
      split at h
      · cases h
        rfl
      · split at h
        · -- the password is right, with a salt or without one
          split at h
          · cases h
            exact setState_mUserId _ _
          · split at h
            · cases h
              rfl
            · obtain ⟨⟨written, dir₁⟩, -, h⟩ := bind_eq_ok h
              split at h <;> cases h
              · exact setState_mUserId _ _
              · rfl
        · have h' := congrArg (Except.toOption ·) h
          obtain rfl := congrArg Prod.fst (some_inj.mp h')
          exact wrongPassword_mUserId u dir

end UserState

variable {u u' : UserState κ}

theorem op_mUserId {dir dir' : Dir} {answer : Answer} (h : op M c u dir = .ok (u', dir', answer)) :
    u'.mUserId = u.mUserId := by
  rw [op] at h
  split at h
  · obtain ⟨⟨u₁, dir₁, response⟩, hinit, h⟩ := bind_eq_ok h
    cases h
    exact UserState.initializeWith_mUserId hinit
  · obtain ⟨_, -, h⟩ := bind_eq_ok h
    cases h
    rfl
  · obtain ⟨⟨u₁, dir₁, response⟩, hread, h⟩ := bind_eq_ok h
    cases h
    exact UserState.readMasterKey_mUserId hread
  · cases h
    exact UserState.setState_mUserId _ _
  · cases h
    exact UserState.setState_mUserId _ _
  · obtain ⟨_, -, h⟩ := bind_eq_ok h
    cases h
    rfl
  · obtain ⟨_, -, h⟩ := bind_eq_ok h
    cases h
    rfl

/-- The user that a call works with. -/
def seen (env : Env κ) (v : ℕ) (s : Store κ) : UserState κ :=
  (s.mMasterKeys.find? fun u => u.mUserId = v).getD (UserState.create env v (s.dirs v))

theorem seen_mUserId (env : Env κ) (v : ℕ) (s : Store κ) : (seen env v s).mUserId = v := by
  rw [seen]
  cases h : s.mMasterKeys.find? fun u => u.mUserId = v with
  | none => exact UserState.create_mUserId _ v (s.dirs v)
  | some u => simpa using List.find?_some h

/-- What `getUserState` finds is there then, and nothing else is new. -/
theorem getUserState_spec (env : Env κ) (uid : ℕ) (s : Store κ) :
    ∃ s₁, getUserState env uid s = (seen env (getUserId uid) s, s₁) ∧ s₁.dirs = s.dirs ∧
      s₁.mMasterKeys.find? (fun u => u.mUserId = getUserId uid) =
        some (seen env (getUserId uid) s) ∧
      ∀ w ≠ getUserId uid, s₁.mMasterKeys.find? (fun u => u.mUserId = w) =
        s.mMasterKeys.find? (fun u => u.mUserId = w) := by
  cases h : s.mMasterKeys.find? fun u => u.mUserId = getUserId uid with
  | some u =>
    refine ⟨s, ?_, rfl, ?_, fun w _ => rfl⟩
    · simp only [getUserState, h, seen, getD_some]
    · simp only [h, seen, getD_some]
  | none =>
    have hid := UserState.create_mUserId env (getUserId uid) (s.dirs (getUserId uid))
    refine ⟨⟨s.mMasterKeys ++ [UserState.create env (getUserId uid) (s.dirs (getUserId uid))],
      s.dirs⟩, by simp only [getUserState, h, seen, getD_none], rfl, ?_, fun w hw => ?_⟩
    · simp only [List.find?_append, h, seen, getD_none]
      simp [hid]
    · rw [List.find?_append]
      have hne : getUserId uid ≠ w := Ne.symm hw
      simp [hid, hne]

theorem find?_replace (users : List (UserState κ)) (hid : u'.mUserId = u.mUserId) (w : ℕ) :
    (users.map fun x => if x.mUserId = u.mUserId then u' else x).find? (fun x => x.mUserId = w) =
      if w = u.mUserId then (users.find? fun x => x.mUserId = w).map fun _ => u'
      else users.find? fun x => x.mUserId = w := by
  induction users with
  | nil => simp
  | cons x users ih =>
    rw [List.map_cons, List.find?_cons, List.find?_cons, ih]
    by_cases hx : x.mUserId = u.mUserId <;> by_cases hw : w = u.mUserId <;> grind

/-- **What a call does**: it concerns one user, whom it finds by the uid it looks up. -/
theorem exec_spec (M : Machine κ) (s : Store κ) (c : Call κ) :
    (∃ e, op M c (seen c.env (getUserId (lookupUid c)) s) (s.dirs (getUserId (lookupUid c))) =
        .error e ∧ exec M s c = .error e) ∨
      ∃ u' dir' answer s₁,
        op M c (seen c.env (getUserId (lookupUid c)) s) (s.dirs (getUserId (lookupUid c))) =
          .ok (u', dir', answer) ∧ exec M s c = .ok (s₁, answer) ∧
        s₁.mMasterKeys.find? (fun u => u.mUserId = getUserId (lookupUid c)) = some u' ∧
        s₁.dirs (getUserId (lookupUid c)) = dir' ∧
        ∀ w ≠ getUserId (lookupUid c), Same w s s₁ := by
  set v := getUserId (lookupUid c) with hv
  obtain ⟨s₁, hget, hdirs, hfind, hothers⟩ := getUserState_spec c.env (lookupUid c) s
  rw [← hv] at hget hfind hothers
  have hid := seen_mUserId c.env v s
  cases hop : op M c (seen c.env v s) (s.dirs v) with
  | error e =>
    refine Or.inl ⟨e, rfl, ?_⟩
    simp only [exec, hget, hid, hdirs, hop]
    rfl
  | ok r =>
    obtain ⟨u', dir', answer⟩ := r
    have hid' := op_mUserId hop
    refine Or.inr ⟨u', dir', answer, _, rfl, by simp only [exec, hget, hid, hdirs, hop]; rfl,
      ?_, ?_, fun w hw => ⟨?_, ?_⟩⟩
    · have h := find?_replace s₁.mMasterKeys hid' v
      rw [hid, if_pos rfl, hfind] at h
      exact h
    · exact Function.update_self _ _ _
    · have h := find?_replace s₁.mMasterKeys hid' w
      rw [hid, if_neg hw, hothers w hw] at h
      exact h.symm
    · exact (Function.update_of_ne hw _ _).symm

theorem isolated_of_direct (M : Machine κ) (hd : Direct c) : Isolated M c := by
  rw [direct_iff] at hd
  intro s s' s₁ answer hsame hexec
  have hseen : seen c.env (user c) s = seen c.env (user c) s' := by
    rw [seen, seen, hsame.1, hsame.2]
  rcases exec_spec M s c with ⟨e, -, herr⟩ | ⟨u', dir', answer', s₂, hop, hok, hfind, hdir, hothers⟩
  · rw [herr] at hexec
    cases hexec
  · rw [hok] at hexec
    cases hexec
    rw [hd] at hop hfind hdir hothers
    refine ⟨?_, fun v hv => hothers v hv⟩
    rcases exec_spec M s' c with
      ⟨e, hop', -⟩ | ⟨u₂, dir₂, answer₂, s₂', hop', hok', hfind', hdir', -⟩
    · rw [hd, ← hseen, ← hsame.2, hop] at hop'
      cases hop'
    · rw [hd, ← hseen, ← hsame.2, hop] at hop'
      cases hop'
      rw [hd] at hfind' hdir'
      exact ⟨s₂', hok', hfind.trans hfind'.symm, hdir.trans hdir'.symm⟩

/-- `writeMasterKey` touches nothing outside its blob. -/
theorem writeMasterKey_ok (M : Machine κ) (env : Env κ) (pw : List UInt8) (u : UserState κ)
    (dir : Dir) : ∃ r, u.writeMasterKey M env pw dir = .ok r := by
  have hsizes : u.mSalt.toList.length ≤ 255 ∧
      u.mMasterKey.toList.length + u.mSalt.toList.length ≤ 32768 := by simp
  obtain ⟨b, hb, hf, -⟩ := createBlob_spec (env.memory 0) typeMasterKey hsizes.1 hsizes.2
  obtain ⟨r, -, hwrite, -⟩ := writeBlob_spec M.crypto
    (M.aesKey (UserState.generateKeyFromPassword M pw (some u.mSalt.toList))) (env.write 0) hf
  exact ⟨_, by simp only [UserState.writeMasterKey, hb, ok_bind, hwrite]; rfl⟩

/-- An empty keystore. -/
def emptyStore : Store κ := ⟨[], fun _ _ => none⟩

/-- A call that translates its uid twice makes another user. -/
theorem not_isolated (M : Machine κ) (hd : ¬ Direct c) : ¬ Isolated M c := by
  have hne : getUserId (lookupUid c) ≠ user c := fun h => hd ((direct_iff c).mpr h)
  have hok : ∃ r, op M c (seen c.env (getUserId (lookupUid c)) emptyStore) (fun _ => none) =
      .ok r := by
    rw [Direct] at hd
    split at hd
    · rename_i pw hreq
      obtain ⟨r, hr⟩ := writeMasterKey_ok M c.env pw
        (seen c.env (getUserId (lookupUid c)) emptyStore) fun _ => none
      exact ⟨_, by simp only [op, hreq, hr, ok_bind]; rfl⟩
    · rename_i pw hreq
      exact ⟨_, by simp only [op, hreq, UserState.readMasterKey, ok_bind]; rfl⟩
    · exact absurd trivial hd
  intro hiso
  obtain ⟨r, hr⟩ := hok
  rcases exec_spec M emptyStore c with ⟨e, hop, -⟩ | ⟨u', dir', answer, s₁, -, hexec, hfind, -⟩
  · rw [show (emptyStore : Store κ).dirs (getUserId (lookupUid c)) = fun _ => none from rfl, hr]
      at hop
    cases hop
  · have hsame := (hiso emptyStore emptyStore s₁ answer ⟨rfl, rfl⟩ hexec).2 _ hne
    have hnone := hsame.1
    rw [hfind] at hnone
    cases hnone

/-- The answers that the calls of one user get. -/
def answersOf (v : ℕ) (cs : List (Call κ)) (as : List Answer) : List Answer :=
  ((cs.zip as).filter fun p => user p.1 = v).map Prod.snd

/-- **The calls of a user** get the same answers without those of others. -/
theorem answers_filter (hd : ∀ c ∈ cs, Direct c) {v : ℕ} {as : List Answer} (hsame : Same v s s')
    (has : answers M s cs = .ok as) :
    answers M s' (cs.filter fun c => user c = v) = .ok (answersOf v cs as) := by
  induction cs generalizing s s' as with
  | nil =>
    cases has
    rfl
  | cons c cs ih =>
    obtain ⟨⟨s₁, answer⟩, hexec, h⟩ := bind_eq_ok has
    obtain ⟨rest, hrest, h⟩ := bind_eq_ok h
    cases h
    have hd' : ∀ c ∈ cs, Direct c := fun c hc => hd c (List.mem_cons_of_mem _ hc)
    have hiso := isolated_of_direct M (hd c List.mem_cons_self)
    by_cases hc : user c = v
    · -- the user's own call
      subst hc
      obtain ⟨⟨s₁', hexec', hsame'⟩, -⟩ := hiso s s' s₁ answer hsame hexec
      have hih := ih hd' hsame' hrest
      rw [List.filter_cons_of_pos (by simp)]
      simp only [answers, hexec', ok_bind, hih]
      simp [answersOf]
    · -- a call of another user
      have hsame₁ := (hiso s s s₁ answer ⟨rfl, rfl⟩ hexec).2 v (Ne.symm hc)
      have hih := ih hd' ⟨hsame₁.1.symm.trans hsame.1, hsame₁.2.symm.trans hsame.2⟩ hrest
      rw [List.filter_cons_of_neg (by simpa using hc), hih]
      simp [answersOf, hc]

/-- **Users are isolated** from a call exactly if it does not translate its uid twice, or is made
for user 0; and among such calls, what a user's calls return depends on these only. -/
theorem isolated_iff (M : Machine κ) :
    (∀ c : Call κ, Isolated M c ↔ Direct c) ∧
      ∀ (cs cs' : List (Call κ)) (v : ℕ) (s : Store κ) (as as' : List Answer),
        (∀ c ∈ cs ++ cs', Direct c) →
        (cs.filter fun c => user c = v) = cs'.filter (fun c => user c = v) →
        answers M s cs = .ok as → answers M s cs' = .ok as' →
        answersOf v cs as = answersOf v cs' as' := by
  refine ⟨fun c => ⟨fun hiso => by_contra fun hd => not_isolated M hd hiso,
    isolated_of_direct M⟩, fun cs cs' v s as as' hd hfilter has has' => ?_⟩
  have h := answers_filter (v := v) (fun c hc => hd c (List.mem_append_left _ hc)) ⟨rfl, rfl⟩ has
  have h' := answers_filter (v := v) (fun c hc => hd c (List.mem_append_right _ hc)) ⟨rfl, rfl⟩
    has'
  rw [hfilter, h'] at h
  exact (Except.ok.inj h).symm

/-- A machine without cryptography, for which all passwords are the same. -/
def plainMachine : Machine Unit where
  crypto := plainCrypto
  aesKey _ := ()
  zeroKey := ()
  pbkdf2 _ _ := Vector.replicate 16 0
  pkcs8 _ := none
  importSupported := false
  importKeypair _ := none
  opensslImportKeypair _ := none
  newDevice := false

/-- A system in which everything succeeds. -/
def smoothEnv : Env Unit where
  made := true
  readable := true
  random := some (Vector.replicate 16 1, Vector.replicate 16 2)
  salt := none
  raw := (.noError, Vector.replicate 16 0, Vector.replicate 16 0, (), ())
  memory _ _ := 0
  read _ := ⟨true, true⟩
  write _ := smooth
  opened := true
  unlinked _ := true

/-- Users 0 and 10 are set up, 0 is locked and 10 goes; and the calls of 0 alone. -/
theorem isolated_iff_twoUsers : ∃ (cs cs' : List (Call Unit)) (as as' : List Answer),
    cs.length = 4 ∧ cs'.length = 2 ∧ answers plainMachine emptyStore cs = .ok as ∧
    answers plainMachine emptyStore cs' = .ok as' ∧ answersOf 0 cs as = answersOf 0 cs' as' := by
  obtain ⟨cs, hcs⟩ : ∃ cs : List (Call Unit), cs = [⟨0, .initializeUser [], smoothEnv⟩,
    ⟨1000000, .initializeUser [], smoothEnv⟩, ⟨0, .lock, smoothEnv⟩,
    ⟨1000000, .reset, smoothEnv⟩] := ⟨_, rfl⟩
  obtain ⟨cs', hcs'⟩ : ∃ cs : List (Call Unit), cs = [⟨0, .initializeUser [], smoothEnv⟩,
    ⟨0, .lock, smoothEnv⟩] := ⟨_, rfl⟩
  have hrun : (answers plainMachine emptyStore cs).toOption.isSome ∧
      (answers plainMachine emptyStore cs').toOption.isSome := by
    rw [hcs, hcs']
    decide +kernel
  cases has : answers plainMachine emptyStore cs with
  | error f => simp [has, Except.toOption] at hrun
  | ok as =>
    cases has' : answers plainMachine emptyStore cs' with
    | error f => simp [has', Except.toOption] at hrun
    | ok as' =>
      refine ⟨cs, cs', as, as', by rw [hcs]; rfl, by rw [hcs']; rfl, has, has',
        (isolated_iff plainMachine).2 cs cs' 0 emptyStore as as' ?_ (by rw [hcs, hcs']; rfl) has
          has'⟩
      rw [hcs, hcs']
      simp [Direct]

/-- **A call of user 10 unlocks user 0**: user 0 is set up and locked, and then user 10, who has no
master key, reads one. -/
theorem unlocks_other_user :
    (do
      let (s, _) ← exec plainMachine emptyStore ⟨0, .initializeUser [], smoothEnv⟩
      let (s, _) ← exec plainMachine s ⟨0, .lock, smoothEnv⟩
      let (s', answer) ← exec plainMachine s ⟨1000000, .readMasterKey [], smoothEnv⟩
      .ok (answer, s.mMasterKeys.map (·.mUserId), s.mMasterKeys.map (·.mState),
        s'.mMasterKeys.map (·.mUserId), s'.mMasterKeys.map (·.mState))) =
      (.ok (.code .noError, [0], [.locked], [0], [.noError]) :
        Except Fault (Answer × List ℕ × List State × List ℕ × List State)) := by
  decide +kernel

end Isolation

end Keystore
