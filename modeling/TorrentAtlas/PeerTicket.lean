import TorrentAtlas.Crypto
import TorrentAtlas.Endpoint

/-!
# Peer tickets and timestamps (`common/peer_ticket.cpp`, `common/net/freshness.hpp`)

Clock values are the source's `long long` seconds, as integers; the casts
between signed and unsigned 64-bit values are written out.
-/
namespace TorrentAtlas

open Encoding Crypto

/-- `static_cast<u64>` of a `long long`. -/
def toU64 (n : Int) : Nat := (n % 18446744073709551616).toNat

/-- `static_cast<long long>` of a `u64`. -/
def toI64 (v : UInt64) : Int :=
  if v.toNat < 9223372036854775808 then v.toNat else (v.toNat : Int) - 18446744073709551616

/-- Freshness against the clock value `now`. -/
def isFreshTimestamp (now : Int) (text : Bytes) : Bool :=
  match parseU64 text with
  | none => false
  | some value => if value.toNat > toU64 (now + 300) then false else decide (now - toI64 value ≤ 300)

structure PeerTicket where
  user : Bytes
  group : Bytes
  file : Bytes
  expires : Int
  deriving DecidableEq, Repr

namespace PeerTicket

def LIFETIME_SECONDS : Int := 300

def encode (t : PeerTicket) : Bytes :=
  toHex t.user ++ lit "." ++ toHex t.group ++ lit "." ++ toHex t.file ++ lit "." ++ decimalInt t.expires

def decode (text : Bytes) : Option PeerTicket :=
  match split text (chr '.') with
  | [user, group, file, expires] =>
    match fromHex user, fromHex group, fromHex file with
    | some user, some group, some file =>
      if user.isEmpty || group.isEmpty || file.isEmpty then none
      else
        match parseU64 expires with
        | none => none
        | some expires => if expires > 4611686018427387904 then none else some ⟨user, group, file, toI64 expires⟩
    | _, _, _ => none
  | _ => none

def expired (t : PeerTicket) (now : Int) : Bool := now ≥ t.expires

def key (ssl : OpenSsl) (t : PeerTicket) (peerKey : Bytes) : Bytes :=
  hmacSha256 ssl peerKey (lit "torrent-peer-ticket-v1|" ++ encode t)

end PeerTicket

structure SeederAccess where
  endpoint : Endpoint
  ticket : Bytes
  key : Bytes
  deriving DecidableEq, Repr

namespace SeederAccess

def encode (a : SeederAccess) : Bytes := a.endpoint.toString ++ lit "/" ++ a.ticket ++ lit "/" ++ toHex a.key

def decode (text : Bytes) : Option SeederAccess :=
  match split text (chr '/') with
  | [address, ticket, hexKey] =>
    match Endpoint.parse address, PeerTicket.decode ticket, fromHex hexKey with
    | some endpoint, some _, some key => if key.length ≠ 32 then none else some ⟨endpoint, ticket, key⟩
    | _, _, _ => none
  | _ => none

def expires (a : SeederAccess) : Int :=
  match PeerTicket.decode a.ticket with
  | some decoded => decoded.expires
  | none => 0

end SeederAccess

/-- For clock values far from the 64-bit edges, freshness is a window of 300 s either way. -/
theorem isFreshTimestamp_iff {now : Int} (h₀ : 0 ≤ now) (h₁ : now ≤ 2 ^ 62) (text : Bytes) :
    isFreshTimestamp now text = true ↔
      ∃ v, parseU64 text = some v ∧ |(v.toNat : Int) - now| ≤ 300 := by
  have hu : toU64 (now + 300) = (now + 300).toNat := by
    unfold toU64
    congr 1
    omega
  cases hp : parseU64 text with
  | none => simp [isFreshTimestamp, hp]
  | some v =>
    simp only [isFreshTimestamp, hp, hu, Option.some.injEq, exists_eq_left', abs_le]
    split
    · next hlarge =>
      simp only [Bool.false_eq_true, false_iff, not_and]
      omega
    · next hsmall =>
      have hv : toI64 v = v.toNat := by
        unfold toI64
        rw [if_pos (by omega)]
      rw [decide_eq_true_eq, hv]
      omega

/-- A timestamp as `std::to_string` writes it is fresh within the window. -/
theorem isFreshTimestamp_decimalInt {now stamp : Int} (hstamp : 0 ≤ stamp) (hfresh : |stamp - now| ≤ 300)
    (hnow : now ≤ 2 ^ 62) : isFreshTimestamp now (decimalInt stamp) = true := by
  have habs := abs_le.mp hfresh
  have hdecimal : decimalInt stamp = decimal stamp.toNat := by
    rw [decimalInt, if_neg (by omega)]
    congr 1
    omega
  have hn : (UInt64.ofNat stamp.toNat).toNat = stamp.toNat := by
    simp only [UInt64.toNat_ofNat']
    omega
  have hu : toU64 (now + 300) = (now + 300).toNat := by
    unfold toU64
    congr 1
    omega
  have hi : toI64 (UInt64.ofNat stamp.toNat) = stamp := by
    rw [toI64, hn, if_pos (by omega)]
    omega
  have hparse : parseU64 (decimalInt stamp) = some (UInt64.ofNat stamp.toNat) := by
    rw [hdecimal]
    exact parseU64_decimal_of_lt (by simp only [u64Bound]; omega)
  simp only [isFreshTimestamp, hparse, hn, hu, hi]
  rw [if_neg (by omega), decide_eq_true_eq]
  omega

namespace PeerTicket

/-- No dot, bar, slash, comma or blank occurs in an encoded ticket apart from its three dots. -/
theorem mem_encode {t : PeerTicket} {c : UInt8} (h : c ∈ t.encode) :
    isXDigit c = true ∨ isDigit c = true ∨ c = chr '.' ∨ c = chr '-' := by
  have hint : c ∈ decimalInt t.expires → isDigit c = true ∨ c = chr '-' := by
    unfold decimalInt
    split
    · intro hm
      rcases List.mem_cons.mp hm with rfl | hm
      · exact Or.inr rfl
      · exact Or.inl (isDigit_of_mem_decimal hm)
    · exact fun hm => Or.inl (isDigit_of_mem_decimal hm)
  have hdot : c ∈ lit "." → c = chr '.' := by simp [lit, chr]
  simp only [encode, List.mem_append] at h
  rcases h with (((((h | h) | h) | h) | h) | h) | h
  · exact Or.inl (isXDigit_of_mem_toHex h)
  · exact Or.inr (Or.inr (Or.inl (hdot h)))
  · exact Or.inl (isXDigit_of_mem_toHex h)
  · exact Or.inr (Or.inr (Or.inl (hdot h)))
  · exact Or.inl (isXDigit_of_mem_toHex h)
  · exact Or.inr (Or.inr (Or.inl (hdot h)))
  · rcases hint h with h | h
    · exact Or.inr (Or.inl h)
    · exact Or.inr (Or.inr (Or.inr h))

theorem dot_not_mem_decimalInt (n : Int) : chr '.' ∉ decimalInt n := by
  unfold decimalInt
  split
  · intro h
    rcases List.mem_cons.mp h with h | h
    · exact absurd h (by decide)
    · exact not_mem_decimal (by decide) _ h
  · exact not_mem_decimal (by decide) _

theorem split_encode (t : PeerTicket) :
    split t.encode (chr '.') = [toHex t.user, toHex t.group, toHex t.file, decimalInt t.expires] := by
  have hx : ∀ b : Bytes, chr '.' ∉ toHex b := not_mem_toHex (by decide)
  rw [split_eq, Delimited.splitOn_eq_iff]
  refine ⟨by simp, ?_, ?_⟩
  · simp only [List.mem_cons, List.not_mem_nil, or_false, forall_eq_or_imp, forall_eq]
    exact ⟨hx _, hx _, hx _, dot_not_mem_decimalInt _⟩
  · simp [encode, List.intercalate_cons_cons, lit, chr]

theorem decimalInt_injective {m n : Int} (h : decimalInt m = decimalInt n) : m = n := by
  have hdash : ∀ k : Nat, chr '-' ∉ decimal k := not_mem_decimal (by decide)
  unfold decimalInt at h
  split at h <;> split at h
  · have := decimal_injective (List.cons.inj h).2
    omega
  · exact absurd (h ▸ List.mem_cons_self) (hdash _)
  · exact absurd (h ▸ List.mem_cons_self) (hdash _)
  · have := decimal_injective h
    omega

/-- Different tickets have different texts. -/
theorem encode_injective {t t' : PeerTicket} (h : t.encode = t'.encode) : t = t' := by
  have hs := split_encode t
  rw [h, split_encode t'] at hs
  simp only [List.cons.injEq, and_true] at hs
  obtain ⟨hu, hg, hf, he⟩ := hs
  cases t; cases t'
  exact PeerTicket.mk.injEq .. |>.mpr ⟨(toHex_injective hu).symm, (toHex_injective hg).symm,
    (toHex_injective hf).symm, (decimalInt_injective he).symm⟩

/-- Tickets with nonempty names and an expiry in range are read back as they are. -/
theorem decode_encode {t : PeerTicket} (hu : t.user ≠ []) (hg : t.group ≠ []) (hf : t.file ≠ [])
    (h₀ : 0 ≤ t.expires) (h₁ : t.expires ≤ 2 ^ 62) : decode t.encode = some t := by
  have hd : decimalInt t.expires = decimal t.expires.toNat := by
    rw [decimalInt, if_neg (by omega)]
    congr 1
    omega
  have hp : parseU64 (decimal t.expires.toNat) = some (UInt64.ofNat t.expires.toNat) :=
    parseU64_decimal_of_lt (by simp only [u64Bound]; omega)
  have hn : (UInt64.ofNat t.expires.toNat).toNat = t.expires.toNat := by
    simp only [UInt64.toNat_ofNat']
    omega
  have hbig : ¬ UInt64.ofNat t.expires.toNat > 4611686018427387904 := by
    simp only [gt_iff_lt, UInt64.lt_iff_toNat_lt, hn, UInt64.reduceToNat]
    omega
  have hi : toI64 (UInt64.ofNat t.expires.toNat) = t.expires := by
    rw [toI64, hn, if_pos (by omega)]
    omega
  simp only [decode, split_encode, fromHex_toHex, hd, hp]
  simp [hu, hg, hf, hbig, hi]

/-- What a ticket text that decodes is made of. -/
theorem decode_eq_some {text : Bytes} {t : PeerTicket} (h : decode text = some t) :
    t.user ≠ [] ∧ t.group ≠ [] ∧ t.file ≠ [] ∧ 0 ≤ t.expires ∧ t.expires ≤ 2 ^ 62 := by
  unfold decode at h
  split at h
  · split at h
    · split at h
      · simp at h
      · next hne =>
        split at h
        · simp at h
        · split at h
          · simp at h
          · next e _ hbig =>
            cases h
            simp only [gt_iff_lt, UInt64.lt_iff_toNat_lt, UInt64.reduceToNat] at hbig
            simp only [Bool.or_eq_true, List.isEmpty_iff, not_or] at hne
            have hi : toI64 e = e.toNat := by rw [toI64, if_pos (by omega)]
            refine ⟨hne.1.1, hne.1.2, hne.2, ?_, ?_⟩ <;> simp only [hi] <;> omega
    · simp at h
  · simp at h

end PeerTicket

end TorrentAtlas
