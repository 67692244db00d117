/-
Blobs of the keystore (`security/keystore/keystore.cpp`, class `Blob`).

A `Blob` is a packed structure with a value and a description (`info`) behind it.
`writeBlob` moves the description behind padding, so that length and value fill
blocks of 16 bytes, and stores digest, length, value and padding encrypted if
the blob is.  `readBlob` moves the description back.

* The structure is a `Buffer` of `sizeofBlob` bytes, whose fields are at fixed offsets; an
  access that leaves it is a fault.
* AES and MD5 are parameters (`Crypto`): decryption inverts encryption on whole blocks.
* What the system does in a call (random numbers, the outcome of file operations)
  is part of its arguments.

`readBlob` takes the length of what was stored from the file.  For a blob that is not
encrypted it forgets the digest, which `writeBlob` leaves room for, and so takes the
description from 16 bytes behind where it is.  `readBack_iff` says that a blob is
read back exactly if it is encrypted or has no description.
-/
import AndroidSystem.Memory
import AndroidSystem.CInt

open CInt Mem

namespace Keystore

/-- The codes that a call returns. -/
inductive ResponseCode
  | noError | locked | uninitialized | systemError | protocolError | permissionDenied
  | keyNotFound | valueCorrupted | undefinedAction
  | wrongPassword0 | wrongPassword1 | wrongPassword2 | wrongPassword3 | signatureInvalid
  deriving DecidableEq, Repr

/-- The state of a user: unlocked, locked, or without a master key. -/
inductive State
  | noError | locked | uninitialized
  deriving DecidableEq, Repr

/-- AES in CBC mode, with its key and vector, and MD5. -/
structure Crypto (κ : Type) where
  encrypt : κ → List UInt8 → List UInt8 → List UInt8
  decrypt : κ → List UInt8 → List UInt8 → List UInt8
  md5 : List UInt8 → List UInt8
  length_encrypt : ∀ key vector data, (encrypt key vector data).length = data.length
  length_decrypt : ∀ key vector data, (decrypt key vector data).length = data.length
  length_md5 : ∀ data, (md5 data).length = 16
  decrypt_encrypt : ∀ key vector data, data.length % 16 = 0 →
    decrypt key vector (encrypt key vector data) = data

/-! ### The structure -/

/-- `VALUE_SIZE` -/
def valueSize : ℕ := 32768

/-- `AES_BLOCK_SIZE` -/
def aesBlockSize : ℕ := 16

/-- `MD5_DIGEST_LENGTH` -/
def md5DigestLength : ℕ := 16

/-- Where the fields of `struct blob` are. -/
def versionAt : ℕ := 0

/-- The offset of `type`. -/
def typeAt : ℕ := 1

/-- The offset of `flags`. -/
def flagsAt : ℕ := 2

/-- The offset of `info`, the length of the description. -/
def infoAt : ℕ := 3

/-- The offset of `vector`. -/
def vectorAt : ℕ := 4

/-- Where the encrypted part begins, which is also the length of the header. -/
def encryptedAt : ℕ := 20

/-- The offset of `digest`, with which the encrypted part begins. -/
def digestAt : ℕ := 20

/-- Where the part begins that the digest is taken of. -/
def digestedAt : ℕ := 36

/-- The offset of `length`, in network byte order. -/
def lengthAt : ℕ := 36

/-- The offset of `value`. -/
def valueAt : ℕ := 40

/-- `sizeof(struct blob)` -/
def sizeofBlob : ℕ := valueAt + (valueSize + aesBlockSize)

/-- `CURRENT_BLOB_VERSION` -/
def currentBlobVersion : UInt8 := 2

/-- `TYPE_MASTER_KEY` -/
def typeMasterKey : UInt8 := 2

/-- `KEYSTORE_FLAG_ENCRYPTED` -/
def flagEncrypted : UInt8 := 1

/-- `KEYSTORE_FLAG_FALLBACK` -/
def flagFallback : UInt8 := 2

/-- `htonl`, and `ntohl`: the bytes in the other order. -/
def htonl (n : ℕ) : ℕ := leNat (leBytes 4 n).reverse

/-- The structure on memory that holds anything. -/
def rawBlob (m : Mem) : Buffer := ⟨0, sizeofBlob, m⟩

/-- The constructor from a value and a description. -/
def createBlob (m : Mem) (value info : List UInt8) (type : UInt8) : Except Fault Buffer := do
  let b ← (rawBlob m).store32 lengthAt value.length
  let b ← b.store valueAt value
  let b ← b.store infoAt [UInt8.ofNat info.length]
  let b ← b.store (valueAt + value.length) info
  let b ← b.store versionAt [currentBlobVersion]
  let b ← b.store typeAt [type]
  b.store flagsAt [if type = typeMasterKey then flagEncrypted else 0]

/-- `isEncrypted` -/
def isEncrypted (b : Buffer) : Bool :=
  if b.mem versionAt < 2 then true else (b.mem flagsAt &&& flagEncrypted) != 0

/-- `setEncrypted` and `setFallback`. -/
def setFlag (flag : UInt8) (on : Bool) (b : Buffer) : Buffer :=
  b.put flagsAt [if on then b.mem flagsAt ||| flag else b.mem flagsAt &&& ~~~flag]

/-- `setEncrypted` -/
def setEncrypted : Bool → Buffer → Buffer := setFlag flagEncrypted

/-- `setFallback` -/
def setFallback : Bool → Buffer → Buffer := setFlag flagFallback

/-- What can be got from a blob. -/
structure Contents where
  value : List UInt8
  info : List UInt8
  type : UInt8
  flags : UInt8
  version : UInt8
  deriving DecidableEq

/-- `getValue`, `getInfo`, `getType`, `getVersion` and the flags. -/
def contents (b : Buffer) : Contents :=
  let length := b.mem.word lengthAt
  ⟨b.mem.slice valueAt length, b.mem.slice (valueAt + length) (b.mem infoAt).toNat,
    b.mem typeAt, b.mem flagsAt, b.mem versionAt⟩

/-! ### Writing -/

/-- What the system does in a call of `writeBlob`: the random numbers it gives, whether the
temporary file is opened and closed, how many bytes it takes, and whether it is renamed. -/
structure WriteEnv where
  random : Option (Vector UInt8 16)
  opened : Bool
  room : ℕ
  closed : Bool
  renamed : Bool

section Functions

variable {κ : Type} (C : Crypto κ) (key : κ)

/-- The encryption in `writeBlob`. -/
def encryptBlob (digestedLength encryptedLength : ℕ) (b : Buffer) : Except Fault Buffer :=
  if isEncrypted b then do
    let digested ← b.load digestedAt digestedLength
    let b ← b.store digestAt (C.md5 digested)
    let vector ← b.load vectorAt aesBlockSize
    let data ← b.load encryptedAt encryptedLength
    b.store encryptedAt (C.encrypt key vector data)
  else .ok b

/-- The layout that `writeBlob` gives the structure, and the length of the file. -/
def pack (b : Buffer) : Except Fault (Buffer × ℕ) := do
  let length := b.mem.word lengthAt
  let info := (b.mem infoAt).toNat
  let dataLength := u32 (length + 4)
  let digestedLength := u32 (dataLength + aesBlockSize - 1) / aesBlockSize * aesBlockSize
  let encryptedLength := u32 (digestedLength + md5DigestLength)
  let moved ← b.load (valueAt + length) info
  let b ← b.store (encryptedAt + encryptedLength) moved
  let b ← b.store (valueAt + length) (List.replicate (digestedLength - dataLength) 0)
  let b ← b.store32 lengthAt (htonl length)
  let b ← encryptBlob C key digestedLength encryptedLength b
  .ok (b, encryptedLength + encryptedAt + info)

/-- The file operations of `writeBlob`, with the contents of the file that it leaves under its
name. -/
def writeFile (env : WriteEnv) (b : Buffer) (fileLength : ℕ) :
    ResponseCode × Option (List UInt8) :=
  if ¬ env.opened then (.systemError, none)
  else if ¬ env.closed then (.systemError, none)
  else if env.room < fileLength then (.systemError, none)
  else if ¬ env.renamed then (.systemError, none)
  else (.noError, some (b.mem.slice 0 fileLength))

/-- `writeBlob`, with the structure it leaves and the new contents of the file, if any. -/
def writeBlob (state : State) (env : WriteEnv) (b : Buffer) :
    Except Fault (ResponseCode × Buffer × Option (List UInt8)) :=
  if isEncrypted b then
    if state ≠ .noError then .ok (.locked, b, none)
    else
      match env.random with
      | none => .ok (.systemError, b, none)
      | some vector => do
        let (b, fileLength) ← pack C key (b.put vectorAt vector.toList)
        let (response, file) := writeFile env b fileLength
        .ok (response, b, file)
  else do
    let (b, fileLength) ← pack C key b
    let (response, file) := writeFile env b fileLength
    .ok (response, b, file)

/-! ### Reading -/

/-- The end of `readBlob`, which moves the description. -/
def unpack (digestedLength : ℤ) (b : Buffer) : Except Fault (ResponseCode × Buffer) := do
  let maxValueLength := digestedLength - 4
  let length := i32 (htonl (b.mem.word lengthAt))
  let b ← b.store32 lengthAt (htonl (b.mem.word lengthAt))
  if length < 0 ∨ maxValueLength < length then .ok (.valueCorrupted, b)
  else
    let info := (b.mem infoAt).toNat
    if info ≠ 0 then do
      let moved ← b.load (valueAt + maxValueLength.toNat) info
      let b ← b.store (valueAt + length.toNat) moved
      .ok (.noError, b)
    else .ok (.noError, b)

/-- The decryption in `readBlob`; the vector becomes the last block of what was encrypted.  A file
without room for the digest makes MD5 read everything. -/
def decryptBlob (encryptedLength : ℕ) (b : Buffer) : Except Fault (ResponseCode × Buffer) :=
  if encryptedLength % aesBlockSize ≠ 0 then .ok (.valueCorrupted, b)
  else do
    let data ← b.load encryptedAt encryptedLength
    let vector ← b.load vectorAt aesBlockSize
    let b ← b.store encryptedAt (C.decrypt key vector data)
    let b ← b.store vectorAt ((vector ++ data).drop encryptedLength)
    if encryptedLength < md5DigestLength then .error .outOfBounds
    else do
      let digested ← b.load digestedAt (encryptedLength - md5DigestLength)
      let digest ← b.load digestAt md5DigestLength
      if digest ≠ C.md5 digested then .ok (.valueCorrupted, b)
      else unpack (encryptedLength - md5DigestLength) b

/-- What the system does in a call of `readBlob`: whether the file, if it exists, is opened and
closed. -/
structure ReadEnv where
  opened : Bool
  closed : Bool

/-- `readBlob` of a file. -/
def readBlob (state : State) (env : ReadEnv) (file : Option (List UInt8)) (b : Buffer) :
    Except Fault (ResponseCode × Buffer) :=
  match file with
  | none => .ok (.keyNotFound, b)
  | some bytes =>
    if ¬ env.opened then .ok (.systemError, b)
    else
      let fileLength := (bytes.take sizeofBlob).length
      let b := b.put 0 (bytes.take sizeofBlob)
      if ¬ env.closed then .ok (.systemError, b)
      else if isEncrypted b ∧ state ≠ .noError then .ok (.locked, b)
      else if fileLength < encryptedAt then .ok (.valueCorrupted, b)
      else
        let encryptedLength : ℤ := fileLength - (encryptedAt + (b.mem infoAt).toNat)
        if encryptedLength < 0 then .ok (.valueCorrupted, b)
        else if isEncrypted b then decryptBlob C key encryptedLength.toNat b
        else unpack encryptedLength b

end Functions

end Keystore
