import TorrentAtlas.Encoding

/-!
# Cryptography (`common/crypto/crypto.{hpp,cpp}`)

OpenSSL is not part of the repository: `OpenSsl` is a parameter that names the
calls the wrappers make, with the output sizes OpenSSL documents. `none` is a
failed call. What the wrappers add (size checks, the empty string on failure) is
modelled here; security assumptions are stated where a theorem needs them.
-/
namespace TorrentAtlas

open Encoding

structure OpenSsl where
  SHA1 : Bytes → Bytes
  SHA256 : Bytes → Option Bytes
  HMAC : Bytes → Bytes → Option Bytes
  PBKDF2 : Bytes → Bytes → Nat → Nat → Option Bytes
  /-- `gcmSeal key nonce aad plain` gives ciphertext and tag. -/
  gcmSeal : Bytes → Bytes → Bytes → Bytes → Option (Bytes × Bytes)
  /-- `gcmOpen key nonce aad ciphertext tag` gives the plaintext if the tag matches. -/
  gcmOpen : Bytes → Bytes → Bytes → Bytes → Bytes → Option Bytes
  Ed25519Sign : Bytes → Bytes → Option Bytes
  Ed25519Verify : Bytes → Bytes → Bytes → Bool
  X25519Derive : Bytes → Bytes → Option Bytes
  SHA1_length : ∀ d, (SHA1 d).length = 20
  SHA256_length : ∀ d h, SHA256 d = some h → h.length = 32
  HMAC_length : ∀ k d h, HMAC k d = some h → h.length = 32
  PBKDF2_length : ∀ p s i n h, PBKDF2 p s i n = some h → h.length = n
  gcmSeal_length : ∀ k n a p c t, gcmSeal k n a p = some (c, t) → c.length = p.length ∧ t.length = 16
  Ed25519Sign_length : ∀ k m s, Ed25519Sign k m = some s → s.length = 64
  X25519Derive_length : ∀ k p s, X25519Derive k p = some s → s.length = 32

namespace Crypto

variable (ssl : OpenSsl)

def INT_MAX : Nat := 2147483647

/-- True if a length can be passed to an OpenSSL call that takes an `int`. -/
def fitsInt (length : Nat) : Bool := length ≤ INT_MAX

def NONCE_SIZE : Nat := 12
def TAG_SIZE : Nat := 16

def constantTimeEqual (left right : Bytes) : Bool := left == right

/-- Raw digest, or the empty string on failure. -/
def sha256 (data : Bytes) : Bytes := (ssl.SHA256 data).getD []

def hmacSha256 (key data : Bytes) : Bytes :=
  if fitsInt key.length then (ssl.HMAC key data).getD [] else []

def pbkdf2Sha256 (password salt : Bytes) (iterations length : Nat) : Bytes :=
  if iterations = 0 || iterations > INT_MAX || length = 0 || !fitsInt length ||
      !fitsInt password.length || !fitsInt salt.length then []
  else (ssl.PBKDF2 password salt iterations length).getD []

def sha1Hex (data : Bytes) : Bytes := toHex (ssl.SHA1 data)

structure AesGcmMessage where
  nonce : Bytes
  ciphertext : Bytes
  tag : Bytes
  deriving DecidableEq, Repr

/-- `random` is what `randomBytes(NONCE_SIZE)` returned: 12 bytes, or none of them. -/
def encrypt (random key aad plain : Bytes) : Option AesGcmMessage :=
  if key.length ≠ 32 || !fitsInt aad.length || !fitsInt plain.length then none
  else if random.length ≠ NONCE_SIZE then none
  else (ssl.gcmSeal key random aad plain).map (fun s => ⟨random, s.1, s.2⟩)

def decrypt (key aad : Bytes) (message : AesGcmMessage) : Option Bytes :=
  if key.length ≠ 32 || message.nonce.length ≠ NONCE_SIZE || message.tag.length ≠ TAG_SIZE ||
      !fitsInt aad.length || !fitsInt message.ciphertext.length then none
  else ssl.gcmOpen key message.nonce aad message.ciphertext message.tag

structure KeyPair where
  privateKey : Bytes
  publicKey : Bytes
  deriving DecidableEq, Repr

def ed25519Sign (privateKey message : Bytes) : Bytes :=
  if privateKey.length ≠ 32 then [] else (ssl.Ed25519Sign privateKey message).getD []

def ed25519Verify (publicKey message signature : Bytes) : Bool :=
  publicKey.length == 32 && signature.length == 64 && ssl.Ed25519Verify publicKey message signature

def x25519SharedSecret (privateKey peerPublicKey : Bytes) : Bytes :=
  if privateKey.length ≠ 32 || peerPublicKey.length ≠ 32 then []
  else (ssl.X25519Derive privateKey peerPublicKey).getD []

theorem length_x25519SharedSecret {ssl : OpenSsl} {privateKey peerPublicKey : Bytes}
    (h : ¬(x25519SharedSecret ssl privateKey peerPublicKey).isEmpty = true) :
    (x25519SharedSecret ssl privateKey peerPublicKey).length = 32 := by
  unfold x25519SharedSecret at *
  split at h
  · simp at h
  · next hsize =>
    rw [if_neg hsize]
    cases hderive : ssl.X25519Derive privateKey peerPublicKey with
    | none => simp [hderive] at h
    | some shared => exact ssl.X25519Derive_length _ _ _ hderive

/-- Encrypting then decrypting under the same key and data gives the plaintext
back, and encrypting never fails on arguments it accepts. -/
structure GcmCorrect : Prop where
  seals : ∀ k n a p, k.length = 32 → n.length = NONCE_SIZE → (ssl.gcmSeal k n a p).isSome = true
  opens : ∀ k n a p c t, ssl.gcmSeal k n a p = some (c, t) → ssl.gcmOpen k n a c t = some p

theorem hmacSha256_length (key data : Bytes) (h : hmacSha256 ssl key data ≠ []) :
    (hmacSha256 ssl key data).length = 32 := by
  unfold hmacSha256 at *
  split at h
  · next hfit =>
    rw [if_pos hfit]
    cases hh : ssl.HMAC key data with
    | none => simp [hh] at h
    | some d => simpa using ssl.HMAC_length key data d hh
  · exact absurd rfl h

theorem encrypt_eq_some {random key aad plain : Bytes} {m : AesGcmMessage}
    (h : encrypt ssl random key aad plain = some m) :
    key.length = 32 ∧ random.length = NONCE_SIZE ∧ fitsInt aad.length = true ∧ fitsInt plain.length = true ∧
      m.nonce = random ∧ m.ciphertext.length = plain.length ∧ m.tag.length = TAG_SIZE ∧
      ssl.gcmSeal key random aad plain = some (m.ciphertext, m.tag) := by
  unfold encrypt at h
  split at h
  · simp at h
  · next hsize =>
    split at h
    · simp at h
    · next hrandom =>
      obtain ⟨⟨c, t⟩, hs, rfl⟩ := Option.map_eq_some_iff.mp h
      obtain ⟨hc, ht⟩ := ssl.gcmSeal_length _ _ _ _ _ _ hs
      simp only [Bool.or_eq_true, decide_eq_true_eq, Bool.not_eq_true', not_or, ne_eq, not_not,
        Bool.not_eq_false] at hsize hrandom
      exact ⟨hsize.1.1, hrandom, hsize.1.2, hsize.2, rfl, hc, ht, hs⟩

/-- With a correct cipher, what `encrypt` produced decrypts under the same key and data. -/
theorem decrypt_encrypt (hssl : GcmCorrect ssl) {random key aad plain : Bytes} {m : AesGcmMessage}
    (h : encrypt ssl random key aad plain = some m) : decrypt ssl key aad m = some plain := by
  obtain ⟨hkey, hrandom, haad, hplain, hnonce, hc, ht, hs⟩ := encrypt_eq_some ssl h
  simp [decrypt, hkey, hnonce, hrandom, haad, hplain, hc, ht, hssl.opens _ _ _ _ _ _ hs]

theorem encrypt_isSome (hssl : GcmCorrect ssl) {random key aad plain : Bytes} (hkey : key.length = 32)
    (hrandom : random.length = NONCE_SIZE) (haad : fitsInt aad.length = true)
    (hplain : fitsInt plain.length = true) : ∃ m, encrypt ssl random key aad plain = some m := by
  obtain ⟨s, hs⟩ := Option.isSome_iff_exists.mp (hssl.seals key random aad plain hkey hrandom)
  exact ⟨⟨random, s.1, s.2⟩, by simp [encrypt, hkey, hrandom, haad, hplain, hs]⟩

/-- One call of `encrypt`, with the nonce it drew. -/
structure Sealing where
  random : Bytes
  key : Bytes
  aad : Bytes
  plain : Bytes
  deriving DecidableEq, Repr

/-- The message a call of `encrypt` produced. -/
def Sealing.message (s : Sealing) : Option AesGcmMessage := encrypt ssl s.random s.key s.aad s.plain

/-- Ideal AES-GCM for one message: whatever it decrypts to, somebody has encrypted just so. -/
def IdealGcm (log : List Sealing) (message : AesGcmMessage) : Prop :=
  ∀ key aad plain, decrypt ssl key aad message = some plain →
    ∃ s ∈ log, s.key = key ∧ s.aad = aad ∧ s.plain = plain ∧ s.message ssl = some message

/-- One recorded encryption. -/
structure Sealed where
  key : Bytes
  nonce : Bytes
  aad : Bytes
  plain : Bytes
  ciphertext : Bytes
  tag : Bytes
  deriving DecidableEq, Repr

/-- Calls and what OpenSSL answered to them. -/
structure Recording where
  sha1 : List (Bytes × Bytes) := []
  sha256 : List (Bytes × Bytes) := []
  hmac : List ((Bytes × Bytes) × Bytes) := []
  pbkdf2 : List ((Bytes × Bytes × Nat) × Bytes) := []
  sealed : List Sealed := []
  signed : List ((Bytes × Bytes) × Bytes) := []
  verified : List (Bytes × Bytes × Bytes) := []
  derived : List ((Bytes × Bytes) × Bytes) := []

def zeroTag : Bytes := List.replicate TAG_SIZE 0

namespace Recording

variable (r : Recording)

def gcm (key nonce aad plain : Bytes) : Bytes × Bytes :=
  match r.sealed.find? (fun s => s.key = key ∧ s.nonce = nonce ∧ s.aad = aad ∧ s.plain = plain) with
  | some s => if s.ciphertext.length = plain.length ∧ s.tag.length = TAG_SIZE then (s.ciphertext, s.tag)
    else (plain, zeroTag)
  | none => (plain, zeroTag)

/-- Replays a recording. A call that was not recorded fails, except that an unrecorded
digest is zero and an unrecorded encryption is the plaintext under the zero tag. -/
def replay : OpenSsl where
  SHA1 data := ((r.sha1.lookup data).filter (·.length = 20)).getD (List.replicate 20 0)
  SHA256 data := (r.sha256.lookup data).filter (·.length = 32)
  HMAC key data := (r.hmac.lookup (key, data)).filter (·.length = 32)
  PBKDF2 password salt iterations length :=
    (r.pbkdf2.lookup (password, salt, iterations)).filter (·.length = length)
  gcmSeal key nonce aad plain := some (r.gcm key nonce aad plain)
  gcmOpen key nonce aad ciphertext tag :=
    match r.sealed.find? (fun s => s.key = key ∧ s.nonce = nonce ∧ s.aad = aad ∧ s.ciphertext = ciphertext ∧
        s.tag = tag) with
    | some s => some s.plain
    | none => if tag = zeroTag then some ciphertext else none
  Ed25519Sign key message := (r.signed.lookup (key, message)).filter (·.length = 64)
  Ed25519Verify key message signature := (key, message, signature) ∈ r.verified
  X25519Derive key peer := (r.derived.lookup (key, peer)).filter (·.length = 32)
  SHA1_length data := by
    cases h : (r.sha1.lookup data).filter (·.length = 20) with
    | none => simp
    | some d => simpa using (Option.filter_eq_some_iff.mp h).2
  SHA256_length _ _ h := by simpa using (Option.filter_eq_some_iff.mp h).2
  HMAC_length _ _ _ h := by simpa using (Option.filter_eq_some_iff.mp h).2
  PBKDF2_length _ _ _ _ _ h := by simpa using (Option.filter_eq_some_iff.mp h).2
  gcmSeal_length key nonce aad plain c t h := by
    have hs : r.gcm key nonce aad plain = (c, t) := Option.some.inj h
    unfold gcm at hs
    split at hs
    · split at hs
      · next hlen => cases hs; exact hlen
      · cases hs; simp [zeroTag, TAG_SIZE]
    · cases hs; simp [zeroTag, TAG_SIZE]
  Ed25519Sign_length _ _ _ h := by simpa using (Option.filter_eq_some_iff.mp h).2
  X25519Derive_length _ _ _ h := by simpa using (Option.filter_eq_some_iff.mp h).2

/-- Recorded encryptions have the sizes of AES-GCM, a tag of their own, and one plaintext each. -/
def Proper : Prop := ∀ s ∈ r.sealed, s.ciphertext.length = s.plain.length ∧ s.tag.length = TAG_SIZE ∧
  s.tag ≠ zeroTag ∧ ∀ t ∈ r.sealed, t.key = s.key → t.nonce = s.nonce → t.aad = s.aad →
    t.ciphertext = s.ciphertext → t.tag = s.tag → t.plain = s.plain

instance : Decidable r.Proper := inferInstanceAs (Decidable (∀ _ ∈ _, _))

end Recording

theorem Recording.gcmCorrect {r : Recording} (h : r.Proper) : GcmCorrect r.replay where
  seals _ _ _ _ _ _ := rfl
  opens k n a p c t hs := by
    have hseal : r.gcm k n a p = (c, t) := Option.some.inj hs
    unfold gcm at hseal
    split at hseal
    · next s hfind =>
      have hmem := List.mem_of_find?_eq_some hfind
      have hcall := List.find?_some hfind
      simp only [decide_eq_true_eq] at hcall
      obtain ⟨rfl, rfl, rfl, rfl⟩ := hcall
      obtain ⟨hc, ht, -, hsame⟩ := h s hmem
      rw [if_pos ⟨hc, ht⟩] at hseal
      cases hseal
      simp only [replay]
      split
      · next s' hfind' =>
        have hcall' := List.find?_some hfind'
        simp only [decide_eq_true_eq] at hcall'
        obtain ⟨hk, hn, ha, hc', ht'⟩ := hcall'
        rw [hsame s' (List.mem_of_find?_eq_some hfind') hk hn ha hc' ht']
      · next hnone =>
        have := List.find?_eq_none.mp hnone s hmem
        simp at this
    · cases hseal
      simp only [replay]
      split
      · next s' hfind' =>
        have hcall' := List.find?_some hfind'
        simp only [decide_eq_true_eq] at hcall'
        exact absurd hcall'.2.2.2.2 (h s' (List.mem_of_find?_eq_some hfind')).2.2.1
      · simp

theorem mem_of_lookup {α β : Type} [BEq α] [LawfulBEq α] {key : α} {value : β} {table : List (α × β)}
    (h : table.lookup key = some value) : (key, value) ∈ table := by
  induction table with
  | nil => simp at h
  | cons entry rest ih =>
    obtain ⟨k, v⟩ := entry
    rw [List.lookup_cons] at h
    split at h
    · next he =>
      rw [beq_iff_eq.mp he, ← Option.some.inj h]
      exact List.mem_cons_self
    · exact List.mem_cons_of_mem _ (ih h)

theorem Recording.hmac_of_lookup {r : Recording} {key data digest : Bytes}
    (h : r.hmac.lookup (key, data) = some digest) (hlen : digest.length = 32) :
    r.replay.HMAC key data = some digest := by
  simp [Recording.replay, h, hlen]

theorem Recording.of_hmacSha256 {r : Recording} {key data : Bytes} (h : hmacSha256 r.replay key data ≠ []) :
    ((key, data), hmacSha256 r.replay key data) ∈ r.hmac := by
  unfold hmacSha256 at *
  split at h
  · next hfit =>
    rw [if_pos hfit]
    cases hl : r.replay.HMAC key data with
    | none => simp [hl] at h
    | some d => exact mem_of_lookup (Option.filter_eq_some_iff.mp hl).1
  · exact absurd rfl h

/-- A digest other than zero has been recorded. -/
theorem Recording.of_sha1 {r : Recording} {data : Bytes} (h : r.replay.SHA1 data ≠ List.replicate 20 0) :
    (data, r.replay.SHA1 data) ∈ r.sha1 := by
  simp only [replay] at *
  cases hl : (r.sha1.lookup data).filter (·.length = 20) with
  | none => simp [hl] at h
  | some d => exact mem_of_lookup (Option.filter_eq_some_iff.mp hl).1

theorem Recording.of_decrypt {r : Recording} {key aad plain : Bytes} {m : AesGcmMessage} (htag : m.tag ≠ zeroTag)
    (h : decrypt r.replay key aad m = some plain) : ∃ s ∈ r.sealed, s.key = key ∧ s.nonce = m.nonce ∧
      s.aad = aad ∧ s.plain = plain ∧ s.ciphertext = m.ciphertext ∧ s.tag = m.tag := by
  unfold decrypt at h
  split at h
  · simp at h
  · simp only [replay] at h
    split at h
    · next s hfind =>
      have hcall := List.find?_some hfind
      simp only [decide_eq_true_eq] at hcall
      obtain ⟨hkey, hnonce, haad, hrest⟩ := hcall
      exact ⟨s, List.mem_of_find?_eq_some hfind, hkey, hnonce, haad, Option.some.inj h, hrest⟩
    · simp [htag] at h

/-- The bytes of a number, most significant first. -/
def ofHex (length value : Nat) : Bytes :=
  (List.range length).reverse.map (fun i => UInt8.ofNat (value / 256 ^ i % 256))

end Crypto

end TorrentAtlas
