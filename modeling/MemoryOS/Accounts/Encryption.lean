/-
Memories encrypted at rest (`crypto.py`, `application/encryption.py`).

A key of its own encrypts each memory and its chunks. It is kept in
`memory_keys`, wrapped by the master key of the environment, and destroying it
there is what deleting a memory for good amounts to.

`AESGCM` is a parameter, of which only is assumed that it opens what it sealed.
What is drawn at random is given to the call that draws it. A command is one
transaction: what raises leaves the tables as they were.
-/
import MemoryOS.Accounts.Scoping
import MemoryOS.Lib.Base64
import MemoryOS.Lib.Outcome

namespace MemoryOS

open Lib

namespace Encryption

-- ====== sealed bytes

/-- `AESGCM`, of a key: a nonce, the data and what is bound in beside it.
Reading back is `none` where it raises `InvalidTag`. -/
structure Aead where
  encrypt : Bytes → Bytes → Bytes → Bytes → Bytes
  decrypt : Bytes → Bytes → Bytes → Bytes → Option Bytes
  inverse : ∀ key nonce data bound,
    decrypt key nonce (encrypt key nonce data bound) bound = some data

/-- `secrets.token_bytes`. -/
abbrev Token (n : Nat) := { bytes : Bytes // bytes.length = n }

/-- Why a key or a text is not to be had. -/
inductive Refusal
  | keyDestroyed
  | decryptionFailed
  /-- `binascii.Error`, `ValueError`: no base64, or no UTF-8. -/
  | malformed
deriving DecidableEq, Repr

/-- `str.encode`. -/
def encodeUtf8 (text : Text) : Bytes :=
  (String.ofList text).toUTF8.data.toList

/-- `bytes.decode`. -/
def decodeUtf8 (bytes : Bytes) : Option Text :=
  (ByteArray.mk bytes.toArray).utf8Decode?.map Array.toList

/-- `CIPHERTEXT_PREFIX`. -/
def ciphertextPrefix : Text := ['e', 'n', 'c', ':', 'v', '1', ':']

/-- `is_encrypted`. -/
def isEncrypted (value : Text) : Bool := ciphertextPrefix.isPrefixOf value

/-- `_aad`. -/
def aad (memoryId : Id) : Bytes := encodeUtf8 (toString memoryId).toList

/-- `Cipher`. -/
structure Cipher where
  aead : Aead
  masterKey : Bytes

namespace Cipher

variable (cipher : Cipher)

/-- A nonce, and what is sealed under it. -/
def lock (key : Bytes) (nonce : Token 12) (data : Bytes) (memoryId : Id) :
    Bytes :=
  nonce.1 ++ cipher.aead.encrypt key nonce.1 data (aad memoryId)

/-- What is sealed, by the nonce before it. -/
def unlock (key : Bytes) (bytes : Bytes) (memoryId : Id) :
    Except Refusal Bytes :=
  match cipher.aead.decrypt key (bytes.take 12) (bytes.drop 12)
    (aad memoryId) with
  | none => .error .decryptionFailed
  | some data => .ok data

/-- `Cipher.wrap`. -/
def wrap (dataKey : Bytes) (nonce : Token 12) (memoryId : Id) : Bytes :=
  cipher.lock cipher.masterKey nonce dataKey memoryId

/-- `Cipher.unwrap`. -/
def unwrap (wrapped : Bytes) (memoryId : Id) : Except Refusal Bytes :=
  cipher.unlock cipher.masterKey wrapped memoryId

/-- `Cipher.encrypt`. -/
def encrypt (plaintext : Text) (dataKey : Bytes) (nonce : Token 12)
    (memoryId : Id) : Text :=
  ciphertextPrefix ++ Base64.encode
    (cipher.lock dataKey nonce (encodeUtf8 plaintext) memoryId)

/-- `Cipher.decrypt`. `b64decode` takes characters of ASCII only. -/
def decrypt (envelope : Text) (dataKey : Bytes) (memoryId : Id) :
    Except Refusal Text :=
  if !isEncrypted envelope then .ok envelope
  else
    let text := envelope.drop ciphertextPrefix.length
    match if text.all (·.toNat < 128) then Base64.decode text else none with
    | none => .error .malformed
    | some raw => do
      match decodeUtf8 (← cipher.unlock dataKey raw memoryId) with
      | none => .error .malformed
      | some plaintext => .ok plaintext

end Cipher

-- ====== the tables

/-- A row of `memories`, as far as it is encrypted. -/
structure StoredMemory where
  id : Id
  content : Option Text
deriving DecidableEq, Repr

/-- A row of `memory_chunks`, as far as it is encrypted. -/
structure StoredChunk where
  id : Id
  memoryId : Id
  content : Text
  searchVector : Option Text
deriving DecidableEq, Repr

/-- The three tables. -/
structure Store where
  memories : List StoredMemory
  chunks : List StoredChunk
  keys : List MemoryKey
deriving DecidableEq

namespace KeyStore

/-- `KeyStore._row`. -/
def row (keys : List MemoryKey) (memoryId : Id) : Option MemoryKey :=
  keys.find? fun k => decide (k.memoryId = memoryId)

/-- `KeyStore.get`. -/
def get (cipher : Cipher) (keys : List MemoryKey) (memoryId : Id) :
    Except Refusal (Option Bytes) :=
  match row keys memoryId with
  | none => .ok none
  | some k =>
    match k.wrappedKey with
    | none => .error .keyDestroyed
    | some wrapped => (cipher.unwrap wrapped memoryId).map some

/-- `KeyStore.ensure`. -/
def ensure (cipher : Cipher) (keys : List MemoryKey) (memoryId : Id)
    (dataKey : Token 32) (nonce : Token 12) :
    Except Refusal (List MemoryKey × Bytes) := do
  match ← get cipher keys memoryId with
  | some key => .ok (keys, key)
  | none =>
    .ok (keys ++ [⟨memoryId, some (cipher.wrap dataKey.1 nonce memoryId)⟩],
      dataKey.1)

/-- `KeyStore.destroy`. -/
def destroy (keys : List MemoryKey) (memoryId : Id) : List MemoryKey × Bool :=
  (keys.map fun k =>
      if k.memoryId = memoryId then { k with wrappedKey := none } else k,
    keys.any fun k => decide (k.memoryId = memoryId) && k.wrappedKey.isSome)

end KeyStore

/-- What `encrypt_memory` draws. -/
structure Draws where
  dataKey : Token 32
  keyNonce : Token 12
  contentNonce : Token 12
  chunkNonce : Id → Token 12

/-- Postgres's `to_tsvector('english', …)`, and a vector's text. -/
abbrev ToTsvector := Text → Text

/-- `_looks_like_ciphertext_index`. -/
def looksLikeCiphertextIndex (searchVector : Text) : Bool :=
  let marker : Text := [Char.ofNat 39, 'e', 'n', 'c', Char.ofNat 39]
  searchVector.tails.any marker.isPrefixOf

section Encrypting

variable (cipher : Cipher) (toTsvector : ToTsvector) (memoryId : Id)

/-- The memory's own text. -/
def encryptContent (key : Bytes) (draws : Draws) (m : StoredMemory) :
    StoredMemory :=
  if m.id = memoryId then
    { m with content := m.content.map fun text =>
      if isEncrypted text then text
      else cipher.encrypt text key draws.contentNonce memoryId }
  else m

/-- The loop's turn, and whether the chunk changed. -/
def encryptChunk (key : Bytes) (draws : Draws) (c : StoredChunk) :
    Except Refusal (StoredChunk × Bool) :=
  if c.memoryId ≠ memoryId then .ok (c, false)
  else if isEncrypted c.content then
    if (c.searchVector.map looksLikeCiphertextIndex).getD true then do
      -- the index is made again, and the ciphertext stays
      let plain ← cipher.decrypt c.content key memoryId
      .ok ({ c with searchVector := some (toTsvector plain) }, true)
    else .ok (c, false)
  else
    .ok ({ c with
      searchVector := some (toTsvector c.content)
      content := cipher.encrypt c.content key (draws.chunkNonce c.id)
        memoryId }, true)

/-- `encrypt_memory`. -/
def encryptMemory (s : Store) (draws : Draws) : Except Refusal (Store × Bool) :=
  match s.memories.find? fun m => decide (m.id = memoryId) with
  | none => .ok (s, false)
  | some ⟨_, none⟩ => .ok (s, false)
  | some ⟨_, some content⟩ => do
    let (keys, key) ← KeyStore.ensure cipher s.keys memoryId draws.dataKey
      draws.keyNonce
    let chunks ← collect (encryptChunk cipher toTsvector memoryId key draws)
      s.chunks
    .ok (⟨s.memories.map (encryptContent cipher memoryId key draws),
        chunks.map (·.1), keys⟩,
      !isEncrypted content || chunks.any (·.2))

/-- `decrypt_memory_content`. -/
def decryptMemoryContent (keys : List MemoryKey) (stored : Option Text) :
    Except Refusal (Option Text) :=
  match stored with
  | none => .ok none
  | some text =>
    if !isEncrypted text then .ok (some text)
    else do
      match ← KeyStore.get cipher keys memoryId with
      | none => .error .decryptionFailed
      | some key => (cipher.decrypt text key memoryId).map some

end Encrypting

/-- The turn of `rotate_master_key` for a row. -/
def rewrap (old new : Cipher) (nonces : Id → Token 12) (k : MemoryKey) :
    Except Refusal MemoryKey :=
  match k.wrappedKey with
  | none => .ok k
  | some wrapped => do
    let dataKey ← old.unwrap wrapped k.memoryId
    .ok { k with
      wrappedKey := some (new.wrap dataKey (nonces k.memoryId) k.memoryId) }

/-- `rotate_master_key`. -/
def rotateMasterKey (old new : Cipher) (nonces : Id → Token 12)
    (keys : List MemoryKey) : Except Refusal (List MemoryKey × Nat × Nat) := do
  let rows ← collect (rewrap old new nonces) keys
  .ok (rows, keys.countP (·.wrappedKey.isSome),
    keys.countP (·.wrappedKey.isNone))

-- ======== the runs

/-- The tables, and the key that is in the environment. -/
structure World where
  store : Store
  masterKey : Bytes

/-- A command. -/
inductive Action
  | encrypt (memoryId : Id) (draws : Draws)
  | rotate (newKey : Bytes) (nonces : Id → Token 12)
  | destroy (memoryId : Id)

/-- A command that raises leaves everything as it was. -/
def step (aead : Aead) (toTsvector : ToTsvector) (w : World) : Action → World
  | .encrypt memoryId draws =>
    match encryptMemory ⟨aead, w.masterKey⟩ toTsvector memoryId w.store draws
      with
    | .error _ => w
    | .ok r => { w with store := r.1 }
  | .rotate newKey nonces =>
    match rotateMasterKey ⟨aead, w.masterKey⟩ ⟨aead, newKey⟩ nonces w.store.keys
      with
    | .error _ => w
    | .ok r => ⟨{ w.store with keys := r.1 }, newKey⟩
  | .destroy memoryId =>
    { w with store := { w.store with
      keys := (KeyStore.destroy w.store.keys memoryId).1 } }

end Encryption

end MemoryOS
