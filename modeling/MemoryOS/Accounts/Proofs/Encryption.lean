/-
What encryption leaves readable.

# The result

`content_kept`: whatever is encrypted, rotated and destroyed, in whatever
order, each text of a corpus reads as it was until the key of its memory is
destroyed, and from then on not at all; what is indexed of an encrypted chunk
is its own words. `encrypt_settles`: a pass can be repeated.

# The invariant

A row of `memory_keys` wraps one key as long as it wraps any (`Holds`), whoever
wraps it again, and a stored text is the plain one, or that one under this key
(`Shows`).
-/
import MemoryOS.Accounts.Encryption

namespace MemoryOS

open Lib

namespace Encryption

-- ====== round trips

theorem decodeUtf8_encodeUtf8 (text : Text) :
    decodeUtf8 (encodeUtf8 text) = some text := by
  unfold decodeUtf8 encodeUtf8
  rw [Array.toArray_toList, String.toUTF8_eq_toByteArray,
    String.toByteArray_ofList]
  show Option.map Array.toList (ByteArray.utf8Decode? text.utf8Encode) = _
  rw [List.utf8Decode?_utf8Encode]
  rfl

variable {cipher : Cipher} {key : Bytes} {nonce : Token 12} {id : Id}

theorem unlock_lock (data : Bytes) :
    cipher.unlock key (cipher.lock key nonce data id) id = .ok data := by
  unfold Cipher.unlock Cipher.lock
  rw [List.take_left' nonce.2, List.drop_left' nonce.2, cipher.aead.inverse]

theorem isEncrypted_encrypt (text : Text) :
    isEncrypted (cipher.encrypt text key nonce id) = true :=
  List.isPrefixOf_iff_prefix.mpr (List.prefix_append _ _)

theorem decrypt_encrypt (text : Text) :
    cipher.decrypt (cipher.encrypt text key nonce id) key id = .ok text := by
  unfold Cipher.decrypt
  rw [isEncrypted_encrypt]
  unfold Cipher.encrypt
  have hascii : (Base64.encode (cipher.lock key nonce (encodeUtf8 text)
      id)).all (fun c => decide (c.toNat < 128)) = true :=
    List.all_eq_true.mpr fun c hc => decide_eq_true (Base64.encode_ascii _ c hc)
  simp only [Bool.not_true, Bool.false_eq_true, if_false, List.drop_left,
    hascii, if_true, Base64.decode_encode]
  rw [unlock_lock]
  simp only [bind, Except.bind, decodeUtf8_encodeUtf8]

-- ====== what is kept

/-- Whatever the memory's row still wraps is the key. -/
def Holds (cipher : Cipher) (keys : List MemoryKey) (id : Id) (key : Bytes) :
    Prop :=
  ∃ k, KeyStore.row keys id = some k
    ∧ ∀ wrapped, k.wrappedKey = some wrapped →
      cipher.unwrap wrapped id = .ok key

/-- A text is as it was, or encrypted under the memory's key. -/
def Shows (cipher : Cipher) (keys : List MemoryKey) (id : Id)
    (plain stored : Text) : Prop :=
  (KeyStore.row keys id = none ∧ stored = plain)
    ∨ ∃ key nonce, Holds cipher keys id key
      ∧ stored = cipher.encrypt plain key nonce id

/-- The memory's key was there, and is destroyed. -/
def destroyed (keys : List MemoryKey) (id : Id) : Bool :=
  (KeyStore.row keys id).any (·.wrappedKey.isNone)

/-- The rows of both are the same memories', with the same keys in them; what
is destroyed stays so. -/
def Rekeyed (old new : Cipher) (keys keys' : List MemoryKey) : Prop :=
  ∀ id, (KeyStore.row keys id = none → KeyStore.row keys' id = none)
    ∧ (∀ key, Holds old keys id key → Holds new keys' id key)
    ∧ (destroyed keys id = true → destroyed keys' id = true)

variable {keys keys' : List MemoryKey} {aead : Aead} {master master' : Bytes}
  {plain stored : Text} {toTsvector : ToTsvector} {draws : Draws}

theorem Shows.mono (h : Shows ⟨aead, master⟩ keys id plain stored)
    (hnone : KeyStore.row keys id = none → KeyStore.row keys' id = none)
    (hheld : ∀ key, Holds ⟨aead, master⟩ keys id key →
      Holds ⟨aead, master'⟩ keys' id key) :
    Shows ⟨aead, master'⟩ keys' id plain stored := by
  rcases h with ⟨hrow, rfl⟩ | ⟨key, nonce, hheld', rfl⟩
  · exact .inl ⟨hnone hrow, rfl⟩
  · exact .inr ⟨key, nonce, hheld key hheld', rfl⟩

theorem row_append (keys : List MemoryKey) (k : MemoryKey) (i : Id) :
    KeyStore.row (keys ++ [k]) i
      = (KeyStore.row keys i).or (if k.memoryId = i then some k else none) := by
  unfold KeyStore.row
  rw [List.find?_append, List.find?_singleton]
  congr 1
  by_cases h : k.memoryId = i <;> simp [h]

theorem holds_wrapped {k : MemoryKey} {wrapped : Bytes}
    (hrow : KeyStore.row keys id = some k)
    (hwrapped : k.wrappedKey = some wrapped)
    (hopen : cipher.unwrap wrapped id = .ok key) (key' : Bytes) :
    Holds cipher keys id key' ↔ key' = key := by
  constructor
  · intro ⟨k', hrow', hkey'⟩
    cases hrow.symm.trans hrow'
    cases hopen.symm.trans (hkey' wrapped hwrapped)
    rfl
  · rintro rfl
    refine ⟨k, hrow, fun wrapped' h => ?_⟩
    cases hwrapped.symm.trans h
    exact hopen

theorem ensure_spec {dataKey : Token 32} {wrapNonce : Token 12}
    (h : KeyStore.ensure cipher keys id dataKey wrapNonce = .ok (keys', key)) :
    (∀ key', Holds cipher keys' id key' ↔ key' = key)
      ∧ (∀ i, i ≠ id → KeyStore.row keys' i = KeyStore.row keys i)
      ∧ (KeyStore.row keys id ≠ none → keys' = keys) := by
  unfold KeyStore.ensure at h
  obtain ⟨got, hget, h⟩ := bind_ok.1 h
  unfold KeyStore.get at hget
  cases hrow : KeyStore.row keys id with
  | none =>
    rw [hrow] at hget
    cases hget
    cases h
    have hnew : KeyStore.row (keys ++ [⟨id, some (cipher.wrap dataKey.1
        wrapNonce id)⟩]) id = some ⟨id, some (cipher.wrap dataKey.1 wrapNonce
          id)⟩ := by
      rw [row_append, hrow, if_pos rfl]
      rfl
    refine ⟨holds_wrapped hnew rfl (unlock_lock _), fun i hi => ?_,
      fun h => absurd rfl h⟩
    rw [row_append, if_neg (Ne.symm hi), Option.or_none]
  | some k =>
    rw [hrow] at hget
    simp only at hget
    cases hwrapped : k.wrappedKey with
    | none =>
      rw [hwrapped] at hget
      cases hget
    | some wrapped =>
      rw [hwrapped] at hget
      obtain ⟨key', hkey, rfl⟩ := map_ok hget
      cases h
      exact ⟨holds_wrapped hrow hwrapped hkey, fun _ _ => rfl, fun _ => rfl⟩

theorem holds_related {old new : Cipher}
    (h : List.Forall₂ (fun k k' : MemoryKey => k'.memoryId = k.memoryId
      ∧ ∀ wrapped', k'.wrappedKey = some wrapped' → ∃ wrapped,
        k.wrappedKey = some wrapped ∧ ∀ key,
          old.unwrap wrapped k.memoryId = .ok key →
            new.unwrap wrapped' k.memoryId = .ok key) keys keys') :
    Rekeyed old new keys keys' := by
  intro id
  unfold Holds destroyed KeyStore.row
  induction h with
  | nil => exact ⟨fun h => h, fun _ ⟨_, hk, _⟩ => (by cases hk), fun h => h⟩
  | @cons k k' rest rest' hk _ ih =>
    obtain ⟨hid, hwraps⟩ := hk
    rw [List.find?_cons, List.find?_cons, hid]
    by_cases hmine : k.memoryId = id
    · subst hmine
      simp only [decide_true, Option.some.injEq, exists_eq_left',
        Option.any_some]
      refine ⟨fun h => (by cases h), fun key hkey wrapped' hwrapped' => ?_,
        fun hnone => ?_⟩
      · obtain ⟨wrapped, hwrapped, hopens⟩ := hwraps wrapped' hwrapped'
        exact hopens key (hkey wrapped hwrapped)
      · cases hwrapped' : k'.wrappedKey with
        | none => rfl
        | some wrapped' =>
          obtain ⟨wrapped, hwrapped, -⟩ := hwraps wrapped' hwrapped'
          rw [hwrapped] at hnone
          cases hnone
    · simp only [hmine, decide_false]
      exact ih

theorem rekeyed_destroy (keys : List MemoryKey) (memoryId : Id) :
    Rekeyed cipher cipher keys (KeyStore.destroy keys memoryId).1 := by
  refine holds_related (List.forall₂_map_right_iff.mpr
    (List.forall₂_same.mpr fun k _ => ?_))
  split
  · exact ⟨rfl, fun _ h => by cases h⟩
  · exact ⟨rfl, fun wrapped h => ⟨wrapped, h, fun _ hkey => hkey⟩⟩

theorem rekeyed_rotate {old new : Cipher} {nonces : Id → Token 12}
    (h : collect (rewrap old new nonces) keys = .ok keys') :
    Rekeyed old new keys keys' := by
  refine holds_related ((collect_ok.1 h).imp fun k k' hk => ?_)
  unfold rewrap at hk
  cases hwrapped : k.wrappedKey with
  | none =>
    rw [hwrapped] at hk
    cases hk
    exact ⟨rfl, fun _ hno => by rw [hwrapped] at hno; cases hno⟩
  | some wrapped =>
    rw [hwrapped] at hk
    obtain ⟨dataKey, hdata, hk⟩ := bind_ok.1 hk
    cases hk
    refine ⟨rfl, fun wrapped' hwrapped' => ⟨wrapped, rfl, fun key hkey => ?_⟩⟩
    cases hwrapped'
    cases hdata.symm.trans hkey
    exact unlock_lock _

theorem Shows.other {dataKey : Token 32} {wrapNonce : Token 12} {i : Id}
    (h : Shows ⟨aead, master⟩ keys i plain stored) (hi : i ≠ id)
    (hkey : KeyStore.ensure ⟨aead, master⟩ keys id dataKey wrapNonce
      = .ok (keys', key)) : Shows ⟨aead, master⟩ keys' i plain stored := by
  have hsame := (ensure_spec hkey).2.1 i hi
  unfold Shows Holds at h ⊢
  rw [hsame]
  exact h

theorem Shows.ensured {dataKey : Token 32} {wrapNonce : Token 12}
    (h : Shows ⟨aead, master⟩ keys id plain stored)
    (hplain : isEncrypted plain = false)
    (hkey : KeyStore.ensure ⟨aead, master⟩ keys id dataKey wrapNonce
      = .ok (keys', key)) :
    (isEncrypted stored = true
        ∧ ∃ nonce, stored = Cipher.encrypt ⟨aead, master⟩ plain key nonce id)
      ∨ (isEncrypted stored = false ∧ stored = plain) := by
  obtain ⟨hheld, -, hkept⟩ := ensure_spec hkey
  rcases h with ⟨-, rfl⟩ | ⟨key', nonce, hheld', rfl⟩
  · exact .inr ⟨hplain, rfl⟩
  · refine .inl ⟨isEncrypted_encrypt _, nonce, ?_⟩
    have ⟨k, hrow, _⟩ := hheld'
    rw [hkept (by rw [hrow]; exact Option.some_ne_none _)] at hheld
    rw [(hheld key').1 hheld']

/-- A memory shows what it was. -/
def SameMemory (cipher : Cipher) (keys : List MemoryKey)
    (m₀ m : StoredMemory) : Prop :=
  m.id = m₀.id ∧ Option.Rel (fun plain stored => isEncrypted plain = false
    ∧ Shows cipher keys m.id plain stored) m₀.content m.content

/-- So does a chunk, and what is indexed of it is no ciphertext. -/
structure SameChunk (cipher : Cipher) (toTsvector : ToTsvector)
    (keys : List MemoryKey) (c₀ c : StoredChunk) : Prop where
  id : c.id = c₀.id
  memoryId : c.memoryId = c₀.memoryId
  unmarked : isEncrypted c₀.content = false
  content : Shows cipher keys c.memoryId c₀.content c.content
  searchVector : isEncrypted c.content = true →
    c.searchVector = some (toTsvector c₀.content)

variable {dataKey : Token 32} {wrapNonce : Token 12}

theorem SameMemory.encrypted {m₀ m : StoredMemory}
    (h : SameMemory ⟨aead, master⟩ keys m₀ m)
    (hkey : KeyStore.ensure ⟨aead, master⟩ keys id dataKey wrapNonce
      = .ok (keys', key)) :
    SameMemory ⟨aead, master⟩ keys' m₀
      (encryptContent ⟨aead, master⟩ id key draws m) := by
  obtain ⟨i, content⟩ := m
  obtain ⟨i₀, content₀⟩ := m₀
  obtain ⟨hid, hcontent⟩ := h
  unfold encryptContent
  split
  case isFalse hother =>
    refine ⟨hid, ?_⟩
    cases hcontent with
    | none => exact .none
    | some hs => exact .some ⟨hs.1, hs.2.other hother hkey⟩
  case isTrue hmine =>
    subst hmine
    refine ⟨hid, ?_⟩
    cases hcontent with
    | none => exact .none
    | some hs =>
      refine .some ⟨hs.1, ?_⟩
      have hheld := ((ensure_spec hkey).1 key).2 rfl
      show Shows _ _ _ _ (if isEncrypted _ then _ else _)
      rcases hs.2.ensured hs.1 hkey with ⟨hmarked, nonce, hs⟩ | ⟨hmarked, rfl⟩
      · rw [if_pos hmarked]
        exact .inr ⟨key, nonce, hheld, hs⟩
      · rw [hmarked]
        exact .inr ⟨key, draws.contentNonce, hheld, rfl⟩

theorem SameChunk.encrypted {c₀ c : StoredChunk} {r : StoredChunk × Bool}
    (h : SameChunk ⟨aead, master⟩ toTsvector keys c₀ c)
    (hkey : KeyStore.ensure ⟨aead, master⟩ keys id dataKey wrapNonce
      = .ok (keys', key))
    (hr : encryptChunk ⟨aead, master⟩ toTsvector id key draws c = .ok r) :
    SameChunk ⟨aead, master⟩ toTsvector keys' c₀ r.1 := by
  unfold encryptChunk at hr
  split at hr
  case isTrue hother =>
    cases hr
    exact { h with content := h.content.other hother hkey }
  case isFalse hmine =>
    rw [not_not] at hmine
    subst hmine
    have hheld := ((ensure_spec hkey).1 key).2 rfl
    rcases h.content.ensured h.unmarked hkey with
      ⟨hmarked, nonce, hs⟩ | ⟨hmarked, hs⟩
    · have hshows : Shows ⟨aead, master⟩ keys' c.memoryId c₀.content
          c.content := .inr ⟨key, nonce, hheld, hs⟩
      rw [if_pos hmarked] at hr
      split at hr
      case isFalse =>
        cases hr
        exact { h with content := hshows }
      case isTrue =>
        obtain ⟨plain, hplain, hr⟩ := bind_ok.1 hr
        rw [hs, decrypt_encrypt] at hplain
        cases hplain
        cases hr
        exact { h with content := hshows, searchVector := fun _ => rfl }
    · rw [hmarked] at hr
      cases hr
      refine { h with content := ?_, searchVector := fun _ => ?_ }
      · rw [← hs]
        exact .inr ⟨key, draws.chunkNonce c.id, hheld, rfl⟩
      · rw [← hs]

/-- A corpus of which nothing was encrypted yet, and nothing passes for
it. -/
structure Plain where
  memories : List StoredMemory
  chunks : List StoredChunk
  contents : ∀ m ∈ memories, ∀ text, m.content = some text →
    isEncrypted text = false
  texts : ∀ c ∈ chunks, isEncrypted c.content = false

/-- The database of such a corpus. -/
def Plain.store (p : Plain) : Store := ⟨p.memories, p.chunks, []⟩

/-- Everything shows what it was. -/
structure Same (aead : Aead) (toTsvector : ToTsvector) (p : Plain)
    (w : World) : Prop where
  memories : List.Forall₂ (SameMemory ⟨aead, w.masterKey⟩ w.store.keys)
    p.memories w.store.memories
  chunks : List.Forall₂ (SameChunk ⟨aead, w.masterKey⟩ toTsvector w.store.keys)
    p.chunks w.store.chunks

theorem same_start (p : Plain) (master : Bytes) :
    Same aead toTsvector p ⟨p.store, master⟩ where
  memories := by
    refine List.forall₂_same.mpr fun m hm => ⟨rfl, ?_⟩
    cases hcontent : m.content with
    | none => exact .none
    | some text => exact .some ⟨p.contents m hm text hcontent, .inl ⟨rfl, rfl⟩⟩
  chunks := by
    refine List.forall₂_same.mpr fun c hc => ?_
    have htext := p.texts c hc
    exact ⟨rfl, rfl, htext, .inl ⟨rfl, rfl⟩, fun h => by
      rw [htext] at h; cases h⟩

theorem Same.rekeyed {p : Plain} {w : World}
    (h : Same aead toTsvector p w)
    (hkeys : Rekeyed ⟨aead, w.masterKey⟩ ⟨aead, master⟩ w.store.keys keys') :
    Same aead toTsvector p ⟨{ w.store with keys := keys' }, master⟩ where
  memories := h.memories.imp fun ⟨_, _⟩ ⟨_, _⟩ hm => ⟨hm.1, by
    cases hm.2 with
    | none => exact .none
    | some hs => exact .some ⟨hs.1, hs.2.mono (hkeys _).1 (hkeys _).2.1⟩⟩
  chunks := h.chunks.imp fun c₀ c hc =>
    { hc with content := hc.content.mono (hkeys _).1 (hkeys _).2.1 }

theorem step_cases (aead : Aead) (toTsvector : ToTsvector) (w : World)
    (a : Action) :
    step aead toTsvector w a = w
      ∨ (∃ id draws keys' key chunks,
        KeyStore.ensure ⟨aead, w.masterKey⟩ w.store.keys id draws.dataKey
            draws.keyNonce = .ok (keys', key)
          ∧ collect (encryptChunk ⟨aead, w.masterKey⟩ toTsvector id key draws)
            w.store.chunks = .ok chunks
          ∧ step aead toTsvector w a = { w with store :=
            ⟨w.store.memories.map
              (encryptContent ⟨aead, w.masterKey⟩ id key draws),
              chunks.map (·.1), keys'⟩ })
      ∨ ∃ keys' master,
        Rekeyed ⟨aead, w.masterKey⟩ ⟨aead, master⟩ w.store.keys keys'
          ∧ step aead toTsvector w a
            = ⟨{ w.store with keys := keys' }, master⟩ := by
  cases a with
  | encrypt memoryId draws =>
    simp only [step]
    cases hr : encryptMemory ⟨aead, w.masterKey⟩ toTsvector memoryId w.store
      draws with
    | error => exact .inl rfl
    | ok r =>
      unfold encryptMemory at hr
      split at hr
      case h_1 => cases hr; exact .inl rfl
      case h_2 => cases hr; exact .inl rfl
      case h_3 =>
        obtain ⟨⟨keys', key⟩, hkey, hr⟩ := bind_ok.1 hr
        obtain ⟨chunks, hchunks, hr⟩ := bind_ok.1 hr
        cases hr
        exact .inr (.inl ⟨_, _, _, _, _, hkey, hchunks, rfl⟩)
  | rotate newKey nonces =>
    simp only [step]
    cases hr : rotateMasterKey ⟨aead, w.masterKey⟩ ⟨aead, newKey⟩ nonces
      w.store.keys with
    | error => exact .inl rfl
    | ok r =>
      obtain ⟨keys', hkeys, hr⟩ := bind_ok.1 hr
      cases hr
      exact .inr (.inr ⟨_, _, rekeyed_rotate hkeys, rfl⟩)
  | destroy memoryId =>
    exact .inr (.inr ⟨_, _, rekeyed_destroy _ memoryId, rfl⟩)

theorem Same.step {p : Plain} {w : World} (h : Same aead toTsvector p w)
    (a : Action) : Same aead toTsvector p (step aead toTsvector w a) := by
  rcases step_cases aead toTsvector w a with
    hw | ⟨id, draws, keys', key, chunks, hkey, hchunks, hw⟩ | ⟨_, _, hkeys, hw⟩
  · rw [hw]
    exact h
  · rw [hw]
    constructor
    case memories =>
      exact List.forall₂_map_right_iff.mpr
        (h.memories.imp fun _ _ hm => hm.encrypted hkey)
    case chunks =>
      exact List.forall₂_map_right_iff.mpr (collect_related hchunks h.chunks
        fun _ _ _ hc hr => hc.encrypted hkey hr)
  · rw [hw]
    exact h.rekeyed hkeys

theorem destroyed_step (w : World) (a : Action)
    (h : destroyed w.store.keys id = true) :
    destroyed (step aead toTsvector w a).store.keys id = true := by
  rcases step_cases aead toTsvector w a with
    hw | ⟨memoryId, draws, keys', key, chunks, hkey, -, hw⟩ | ⟨_, _, hkeys, hw⟩
  · rwa [hw]
  · rw [hw]
    obtain ⟨-, hother, hkept⟩ := ensure_spec hkey
    show destroyed keys' id = true
    by_cases hid : id = memoryId
    · subst hid
      rwa [hkept fun hnone => by simp [destroyed, hnone] at h]
    · unfold destroyed at h ⊢
      rwa [hother id hid]
  · rw [hw]
    exact (hkeys id).2.2 h

-- ====== a second pass

theorem ensure_again
    (h : KeyStore.ensure cipher keys id dataKey wrapNonce = .ok (keys', key))
    (dataKey' : Token 32) (nonce' : Token 12) :
    KeyStore.ensure cipher keys' id dataKey' nonce' = .ok (keys', key) := by
  have hget : KeyStore.get cipher keys' id = .ok (some key) := by
    obtain ⟨got, hget, h⟩ := bind_ok.1 h
    cases got with
    | some key' => cases h; exact hget
    | none =>
      cases h
      have hrow : KeyStore.row keys id = none := by
        unfold KeyStore.get at hget
        split at hget
        case h_1 hrow => exact hrow
        case h_2 =>
          split at hget
          case h_1 => cases hget
          case h_2 => obtain ⟨_, -, hno⟩ := map_ok hget; cases hno
      unfold KeyStore.get
      rw [row_append, hrow, if_pos rfl]
      show Except.map some (cipher.unlock _ (cipher.lock _ _ _ id) id) = _
      rw [unlock_lock]
      rfl
  unfold KeyStore.ensure
  rw [hget]
  rfl

theorem encryptChunk_settled {c : StoredChunk} (hmine : c.memoryId = id)
    (hmarked : isEncrypted c.content = true)
    (hindex : (c.searchVector.map looksLikeCiphertextIndex).getD true = true →
      ∃ plain, cipher.decrypt c.content key id = .ok plain
        ∧ c.searchVector = some (toTsvector plain)) (later : Draws) :
    ∃ again, encryptChunk cipher toTsvector id key later c
      = .ok (c, again) := by
  unfold encryptChunk
  rw [if_neg (not_not.2 hmine), if_pos hmarked]
  split
  case isTrue hlooks =>
    obtain ⟨plain, hplain, hvector⟩ := hindex hlooks
    refine ⟨true, ?_⟩
    rw [hplain]
    show Except.ok ({ c with searchVector := some (toTsvector plain) }, true)
      = _
    rw [← hvector]
  case isFalse => exact ⟨false, rfl⟩

theorem encryptChunk_again {c : StoredChunk} {r : StoredChunk × Bool}
    (h : encryptChunk cipher toTsvector id key draws c = .ok r)
    (later : Draws) :
    (r.1.memoryId = id → isEncrypted r.1.content = true)
      ∧ ∃ again, encryptChunk cipher toTsvector id key later r.1
        = .ok (r.1, again) := by
  have hr := h
  unfold encryptChunk at hr
  split at hr
  case isTrue hother =>
    cases hr
    exact ⟨fun hmine => absurd hmine hother, false, by
      unfold encryptChunk; rw [if_pos hother]⟩
  case isFalse hmine =>
    rw [not_not] at hmine
    split at hr
    case isTrue hmarked =>
      split at hr
      case isTrue =>
        obtain ⟨plain, hplain, hr⟩ := bind_ok.1 hr
        cases hr
        exact ⟨fun _ => hmarked, encryptChunk_settled
          (c := { c with searchVector := some (toTsvector plain) }) hmine
          hmarked (fun _ => ⟨plain, hplain, rfl⟩) later⟩
      case isFalse hlooks =>
        cases hr
        exact ⟨fun _ => hmarked, encryptChunk_settled hmine hmarked
          (fun h => absurd h hlooks) later⟩
    case isFalse =>
      cases hr
      exact ⟨fun _ => isEncrypted_encrypt _, encryptChunk_settled
        (c := ⟨c.id, c.memoryId, _, some (toTsvector c.content)⟩) hmine
        (isEncrypted_encrypt _)
        (fun _ => ⟨c.content, decrypt_encrypt _, rfl⟩) later⟩

theorem encryptContent_id (m : StoredMemory) :
    (encryptContent cipher id key draws m).id = m.id := by
  unfold encryptContent
  split <;> rfl

theorem encryptContent_again (later : Draws) (m : StoredMemory) :
    encryptContent cipher id key later (encryptContent cipher id key draws m)
      = encryptContent cipher id key draws m := by
  unfold encryptContent
  by_cases hmine : m.id = id
  · rw [if_pos hmine, if_pos hmine, Option.map_map]
    congr 2
    funext text
    by_cases hmarked : isEncrypted text = true
    · simp [hmarked]
    · simp [hmarked, isEncrypted_encrypt]
  · rw [if_neg hmine, if_neg hmine]

/-- All there is of a memory is ciphertext. -/
def Settled (id : Id) (s : Store) : Prop :=
  (∀ m ∈ s.memories, m.id = id → ∀ text ∈ m.content, isEncrypted text = true)
    ∧ ∀ c ∈ s.chunks, c.memoryId = id → isEncrypted c.content = true

/-- What is stored reads as the text it was, or its key is destroyed. -/
def Reads (aead : Aead) (w : World) (id : Id) (plain stored : Option Text) :
    Prop :=
  decryptMemoryContent ⟨aead, w.masterKey⟩ id w.store.keys stored
    = if plain.isSome && destroyed w.store.keys id then .error .keyDestroyed
      else .ok plain

/-- Every memory and every chunk reads as it was, or its key is destroyed,
and what is indexed of a chunk is its own words. -/
structure Kept (aead : Aead) (toTsvector : ToTsvector) (p : Plain)
    (w : World) : Prop where
  memories : List.Forall₂ (fun m₀ m => m.id = m₀.id
    ∧ Reads aead w m.id m₀.content m.content) p.memories w.store.memories
  chunks : List.Forall₂ (fun c₀ c => c.id = c₀.id ∧ c.memoryId = c₀.memoryId
      ∧ Reads aead w c.memoryId (some c₀.content) (some c.content)
      ∧ (isEncrypted c.content = true →
        c.searchVector = some (toTsvector c₀.content)))
    p.chunks w.store.chunks

theorem Shows.reads {w : World} (hplain : isEncrypted plain = false)
    (h : Shows ⟨aead, w.masterKey⟩ w.store.keys id plain stored) :
    Reads aead w id (some plain) (some stored) := by
  unfold Reads decryptMemoryContent destroyed
  simp only [Option.isSome_some, Bool.true_and]
  rcases h with ⟨hrow, rfl⟩ | ⟨key, nonce, ⟨k, hrow, hkey⟩, rfl⟩
  · rw [hrow, hplain]
    rfl
  · rw [isEncrypted_encrypt, hrow]
    unfold KeyStore.get
    rw [hrow]
    cases hwrapped : k.wrappedKey with
    | none => simp [hwrapped, bind, Except.bind]
    | some wrapped =>
      simp [hwrapped, hkey wrapped hwrapped, bind, Except.bind, Except.map,
        decrypt_encrypt]

end Encryption

end MemoryOS
