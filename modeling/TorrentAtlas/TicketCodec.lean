import TorrentAtlas.Revocation

/-!
# Ticket texts and ticket keys

`decode` takes several spellings of one ticket (hex digits of either case, leading
zeros), `encode` writes one of them, and the key is made from that one. So a seeder
gives two texts the same key exactly if they say the same.
-/
namespace TorrentAtlas.PeerTicket

open Encoding Crypto

/-- The tickets that a text can carry. -/
def Expressible (t : PeerTicket) : Prop :=
  t.user ≠ [] ∧ t.group ≠ [] ∧ t.file ≠ [] ∧ 0 ≤ t.expires ∧ t.expires ≤ 2 ^ 62

/-- No two texts have the same HMAC under this key. -/
def CollisionFree (ssl : OpenSsl) (peerKey : Bytes) : Prop :=
  ∀ text text' code, ssl.HMAC peerKey text = some code → ssl.HMAC peerKey text' = some code → text = text'

/-- A number is read back only if it was not negative. -/
theorem parseU64_decimalInt {n : Int} {v : UInt64} (h : parseU64 (decimalInt n) = some v) : (v.toNat : Int) = n := by
  unfold decimalInt at h
  split at h
  · have hdash : (chr '-' :: decimal n.natAbs).all isDigit = false := rfl
    simp [parseU64, hdash] at h
  · have hvalue := (parseU64_eq_some.mp h).2.2
    rw [decimalValue_decimal] at hvalue
    omega

/-- Only what a text can carry is read back. -/
theorem decode_encode_eq_some {t t' : PeerTicket} (h : decode t.encode = some t') : t = t' := by
  simp only [decode, split_encode, fromHex_toHex] at h
  split at h
  · simp at h
  · split at h
    · simp at h
    · next v hv =>
      split at h
      · simp at h
      · next hbig =>
        obtain rfl := Option.some.inj h
        have hn := parseU64_decimalInt hv
        simp only [gt_iff_lt, UInt64.lt_iff_toNat_lt, UInt64.reduceToNat] at hbig
        have hi : toI64 v = t.expires := by
          rw [toI64, if_pos (by omega), hn]
        cases t
        simp only at hi
        rw [hi]

theorem decode_encode_iff (t : PeerTicket) : decode t.encode = some t ↔ t.Expressible :=
  ⟨decode_eq_some, fun h => decode_encode h.1 h.2.1 h.2.2.1 h.2.2.2.1 h.2.2.2.2⟩

/-- With HMAC free of collisions, tickets share a usable key only if they are the same. -/
theorem eq_of_key {ssl : OpenSsl} {peerKey : Bytes} (hfree : CollisionFree ssl peerKey) {t t' : PeerTicket}
    (hkey : t.key ssl peerKey ≠ []) (h : t.key ssl peerKey = t'.key ssl peerKey) : t = t' := by
  have hmac : ∀ u : PeerTicket, u.key ssl peerKey ≠ [] →
      ssl.HMAC peerKey (lit "torrent-peer-ticket-v1|" ++ u.encode) = some (u.key ssl peerKey) := by
    intro u hu
    unfold key hmacSha256 at *
    split at hu
    · next hfit =>
      rw [if_pos hfit]
      cases hcode : ssl.HMAC peerKey (lit "torrent-peer-ticket-v1|" ++ u.encode) with
      | none => simp [hcode] at hu
      | some code => rfl
    · exact absurd rfl hu
  have hsame := hfree _ _ _ (hmac t hkey) (h ▸ hmac t' (h ▸ hkey))
  exact encode_injective (List.append_cancel_left hsame)

/-- A ticket comes back from its text exactly if the text can carry it; different tickets have different texts; a
text that is accepted says the same in the spelling that `encode` chooses; and two accepted texts have the same key at
a seeder exactly if they name the same user, group, file and expiry. -/
theorem ticket_codec (ssl : OpenSsl) :
    (∀ t : PeerTicket, (decode t.encode = some t ↔ t.Expressible) ∧ (¬ t.Expressible → decode t.encode = none)) ∧
    (∀ t t' : PeerTicket, t.encode = t'.encode → t = t') ∧
    (∀ text t, decode text = some t → decode t.encode = decode text) ∧
    ∀ peerKey, CollisionFree ssl peerKey → ∀ text text' t t', decode text = some t → decode text' = some t' →
      t.key ssl peerKey ≠ [] → (t.key ssl peerKey = t'.key ssl peerKey ↔
        t.user = t'.user ∧ t.group = t'.group ∧ t.file = t'.file ∧ t.expires = t'.expires) := by
  refine ⟨fun t => ⟨decode_encode_iff t, fun hno => ?_⟩, fun t t' h => encode_injective h, fun text t h => ?_,
    fun peerKey hfree text text' t t' _ _ hkey => ⟨fun h => ?_, fun h => ?_⟩⟩
  · by_contra hne
    obtain ⟨t', h⟩ := Option.ne_none_iff_exists'.mp hne
    obtain rfl := decode_encode_eq_some h
    exact hno ((decode_encode_iff t).mp h)
  · rw [h, decode_encode_iff]
    exact decode_eq_some h
  · obtain rfl := eq_of_key hfree hkey h
    exact ⟨rfl, rfl, rfl, rfl⟩
  · obtain ⟨hu, hg, hf, he⟩ := h
    cases t
    cases t'
    simp_all

/-- Two spellings of Bob's ticket have its key; the ticket that expires later has another one. -/
theorem ticket_codec_bob : ∃ t t', decode (lit "626F62.67.66.01300") = some t ∧
    decode (lit "626f62.67.66.1500") = some t' ∧ decode t.encode = some t ∧
    t.key TrackerState.recording.replay TrackerState.peerKeyOfAlice ≠
      t'.key TrackerState.recording.replay TrackerState.peerKeyOfAlice := by
  let t : PeerTicket := ⟨lit "bob", lit "g", lit "f", 1300⟩
  let t' : PeerTicket := ⟨lit "bob", lit "g", lit "f", 1500⟩
  have hdecode : decode (lit "626F62.67.66.01300") = some t ∧ decode (lit "626f62.67.66.1500") = some t' ∧
      t.key TrackerState.recording.replay TrackerState.peerKeyOfAlice ≠ [] := by decide +kernel
  obtain ⟨hfirst, hsecond, hkey⟩ := hdecode
  have hfree : CollisionFree TrackerState.recording.replay TrackerState.peerKeyOfAlice := by
    intro text text' code h h'
    have hm := mem_of_lookup (Option.filter_eq_some_iff.mp h).1
    have hm' := mem_of_lookup (Option.filter_eq_some_iff.mp h').1
    simp only [TrackerState.recording, List.mem_cons, Prod.mk.injEq, List.not_mem_nil, or_false, true_and] at hm hm'
    rcases hm with ⟨rfl, rfl⟩ | ⟨rfl, rfl⟩ <;> rcases hm' with ⟨rfl, hcode⟩ | ⟨rfl, hcode⟩
    · rfl
    · exact absurd hcode (by decide)
    · exact absurd hcode (by decide)
    · rfl
  obtain ⟨-, -, hcanonical, hkeys⟩ := ticket_codec TrackerState.recording.replay
  refine ⟨t, t', hfirst, hsecond, (hcanonical _ t hfirst).trans hfirst, fun h => ?_⟩
  have := (hkeys TrackerState.peerKeyOfAlice hfree _ _ t t' hfirst hsecond hkey).mp h
  exact absurd this.2.2.2 (by decide)

end TorrentAtlas.PeerTicket
