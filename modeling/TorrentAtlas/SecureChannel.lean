import TorrentAtlas.PeerTicket

/-!
# The secure channel (`common/net/secure_channel.cpp`)

`connect` and `accept` are cut at the points where they wait for the network, so
that an attacker can act in between: `connectHello`/`connectFinish` on the
client's side, `acceptHello`/`acceptFinish` on the tracker's. Key pairs, nonces
and clock values are arguments, as many as the source draws.
-/
namespace TorrentAtlas.SecureChannel

open Encoding Crypto

/-- The sender's key, if the field count, sizes and timestamp check out. -/
def parseHello (now : Int) (fields : List Bytes) (expectedFields : Nat) : Option Bytes :=
  if fields.length ≠ expectedFields || fields.getD 0 [] ≠ lit "HELLO" then none
  else
    match fromHex (fields.getD 1 []), fromHex (fields.getD 2 []) with
    | some publicKey, some nonce =>
      if publicKey.length = 32 && nonce.length = 16 && isFreshTimestamp now (fields.getD 3 []) then some publicKey
      else none
    | _, _ => none

def helloFields (now : Int) (ephemeral : KeyPair) (nonce : Bytes) : Bytes :=
  toHex ephemeral.publicKey ++ lit "|" ++ toHex nonce ++ lit "|" ++ decimalInt now

def transcript (clientHello serverFields : Bytes) : Bytes :=
  lit "torrent-handshake-v1|" ++ clientHello ++ lit "|" ++ serverFields

variable (ssl : OpenSsl)

/-- 32 bytes, or the empty string if the key exchange failed. -/
def sessionKey (ephemeral : KeyPair) (peerPublic transcript : Bytes) : Bytes :=
  let shared := x25519SharedSecret ssl ephemeral.privateKey peerPublic
  if shared.isEmpty then [] else sha256 ssl (shared ++ transcript)

/-- What a client has verified when `connect` succeeds. -/
structure Session where
  serverFields : Bytes
  signedText : Bytes
  key : Bytes
  deriving DecidableEq, Repr

/-- The first frame of `connect`. -/
def connectHello (now : Int) (ephemeral : KeyPair) (nonce : Bytes) : Bytes :=
  lit "HELLO|" ++ helloFields now ephemeral nonce

/-- `connect` from the reply on. -/
def connectFinish (trackerPublicKey : Bytes) (now : Int) (ephemeral : KeyPair) (hello reply : Bytes) :
    Option Session :=
  let fields := split reply (chr '|')
  match parseHello now fields 5 with
  | none => none
  | some serverPublic =>
    match fromHex (fields.getD 4 []) with
    | none => none
    | some signature =>
      let serverFields := fields.getD 1 [] ++ lit "|" ++ fields.getD 2 [] ++ lit "|" ++ fields.getD 3 []
      let signedText := transcript hello serverFields
      if !ed25519Verify ssl trackerPublicKey signedText signature then none
      else
        let key := sessionKey ssl ephemeral serverPublic signedText
        if key.length ≠ 32 then none else some ⟨serverFields, signedText, key⟩

/-- What `accept` has when it sends its reply. -/
structure Offer where
  hello : Bytes
  clientPublic : Bytes
  ephemeral : KeyPair
  nonce : Bytes
  serverFields : Bytes
  signedText : Bytes
  signature : Bytes
  deriving DecidableEq, Repr

/-- `accept` up to its reply; `parsed` and `now` are its two readings of the clock. -/
def acceptHello (identityPrivateKey : Bytes) (parsed now : Int) (ephemeral : Option KeyPair) (nonce hello : Bytes) :
    Option Offer :=
  match parseHello parsed (split hello (chr '|')) 4 with
  | none => none
  | some clientPublic =>
    match ephemeral with
    | none => none
    | some ephemeral =>
      if nonce.length ≠ 16 then none
      else
        let serverFields := helloFields now ephemeral nonce
        let signedText := transcript hello serverFields
        let signature := ed25519Sign ssl identityPrivateKey signedText
        if signature.isEmpty then none
        else some ⟨hello, clientPublic, ephemeral, nonce, serverFields, signedText, signature⟩

/-- The frame `accept` sends. -/
def Offer.reply (o : Offer) : Bytes := lit "HELLO|" ++ o.serverFields ++ lit "|" ++ toHex o.signature

/-- The session key `accept` ends with. -/
def acceptFinish (o : Offer) : Option Bytes :=
  let key := sessionKey ssl o.ephemeral o.clientPublic o.signedText
  if key.length ≠ 32 then none else some key

def CLIENT_LABEL : Bytes := lit "client->tracker"
def TRACKER_LABEL : Bytes := lit "tracker->client"

/-- The frame of an encrypted message: nonce, tag, ciphertext. -/
def frameOf (m : AesGcmMessage) : Bytes := m.nonce ++ m.tag ++ m.ciphertext

/-- `seal` with the sender's label; the empty string if encryption failed. -/
def sealFrame (random key label plain : Bytes) : Bytes :=
  match encrypt ssl random key label plain with
  | none => []
  | some m => frameOf m

/-- How `receive` reads a frame. -/
def messageOf (frame : Bytes) : AesGcmMessage := ⟨frame.take 12, frame.drop 28, (frame.drop 12).take 16⟩

def receive (key label frame : Bytes) : Option Bytes :=
  if frame.length < 28 then none else decrypt ssl key label (messageOf frame)

theorem messageOf_frameOf {m : AesGcmMessage} (hn : m.nonce.length = NONCE_SIZE) (ht : m.tag.length = TAG_SIZE) :
    messageOf (frameOf m) = m := by
  simp only [NONCE_SIZE, TAG_SIZE] at hn ht
  have htag : (frameOf m).drop 12 = m.tag ++ m.ciphertext := by
    rw [frameOf, List.append_assoc, List.drop_left' hn]
  have hdrop : (frameOf m).drop 28 = m.ciphertext := by
    rw [show (28 : Nat) = 12 + 16 from rfl, ← List.drop_drop, htag, List.drop_left' ht]
  have htake : (frameOf m).take 12 = m.nonce := by rw [frameOf, List.append_assoc, List.take_left' hn]
  cases m
  simp only [messageOf, htake, hdrop, htag, AesGcmMessage.mk.injEq, true_and]
  exact List.take_left' ht

section Text

variable {ssl}

theorem bar_not_mem_decimalInt (n : Int) : chr '|' ∉ decimalInt n := by
  unfold decimalInt
  split
  · intro h
    rcases List.mem_cons.mp h with h | h
    · exact absurd h (by decide)
    · exact not_mem_decimal (by decide) _ h
  · exact not_mem_decimal (by decide) _

theorem splitOn_helloFields (now : Int) (ephemeral : KeyPair) (nonce : Bytes) :
    (helloFields now ephemeral nonce).splitOn (chr '|') =
      [toHex ephemeral.publicKey, toHex nonce, decimalInt now] := by
  have hx : ∀ b : Bytes, chr '|' ∉ toHex b := not_mem_toHex (by decide)
  rw [Delimited.splitOn_eq_iff]
  refine ⟨by simp, ?_, ?_⟩
  · simp only [List.mem_cons, List.not_mem_nil, or_false, forall_eq_or_imp, forall_eq]
    exact ⟨hx _, hx _, bar_not_mem_decimalInt _⟩
  · simp [helloFields, List.intercalate_cons_cons, lit, chr]

theorem splitOn_connectHello (now : Int) (ephemeral : KeyPair) (nonce : Bytes) :
    (connectHello now ephemeral nonce).splitOn (chr '|') =
      [lit "HELLO", toHex ephemeral.publicKey, toHex nonce, decimalInt now] := by
  have hcut : connectHello now ephemeral nonce = lit "HELLO" ++ chr '|' :: helloFields now ephemeral nonce := by
    simp [connectHello, lit, chr]
  rw [hcut, Delimited.splitOn_cons_field _ (by decide), splitOn_helloFields]

theorem splitOn_transcript (clientHello serverFields : Bytes) :
    (transcript clientHello serverFields).splitOn (chr '|') =
      lit "torrent-handshake-v1" :: (clientHello.splitOn (chr '|') ++ serverFields.splitOn (chr '|')) := by
  have hcut : transcript clientHello serverFields =
      lit "torrent-handshake-v1" ++ chr '|' :: (clientHello ++ chr '|' :: serverFields) := by
    simp [transcript, lit, chr]
  rw [hcut, Delimited.splitOn_cons_field _ (by decide), List.splitOn_append_cons_self]

/-- Hellos of four fields and what follows them can be told apart in a transcript. -/
theorem transcript_injective {h h' f f' : Bytes} (hh : (h.splitOn (chr '|')).length = 4)
    (hh' : (h'.splitOn (chr '|')).length = 4) (heq : transcript h f = transcript h' f') : h = h' ∧ f = f' := by
  have hs := congrArg (List.splitOn (chr '|')) heq
  rw [splitOn_transcript, splitOn_transcript, List.cons.injEq] at hs
  obtain ⟨h₁, h₂⟩ := List.append_inj hs.2 (hh.trans hh'.symm)
  exact ⟨Delimited.splitOn_injective h₁, Delimited.splitOn_injective h₂⟩

theorem parseHello_eq_some {now : Int} {fields : List Bytes} {n : Nat} {publicKey : Bytes}
    (h : parseHello now fields n = some publicKey) :
    fields.length = n ∧ fields.getD 0 [] = lit "HELLO" ∧ fromHex (fields.getD 1 []) = some publicKey ∧
      publicKey.length = 32 := by
  unfold parseHello at h
  split at h
  · simp at h
  · next hshape =>
    simp only [Bool.or_eq_true, decide_eq_true_eq, not_or, ne_eq, not_not] at hshape
    split at h
    · next publicKey' nonce hpublic hnonce =>
      split at h
      · next hok =>
        obtain rfl := Option.some.inj h
        simp only [Bool.and_eq_true, decide_eq_true_eq] at hok
        exact ⟨hshape.1, hshape.2, hpublic, hok.1.1⟩
      · simp at h
    · simp at h

/-- What is behind a successful `connect`. -/
theorem connectFinish_eq_some {trackerPublicKey hello reply : Bytes} {now : Int} {ephemeral : KeyPair}
    {session : Session} (h : connectFinish ssl trackerPublicKey now ephemeral hello reply = some session) :
    ∃ hexPublic hexNonce time serverPublic signature,
      session.serverFields = hexPublic ++ lit "|" ++ hexNonce ++ lit "|" ++ time ∧
      session.serverFields.splitOn (chr '|') = [hexPublic, hexNonce, time] ∧
      fromHex hexPublic = some serverPublic ∧ session.signedText = transcript hello session.serverFields ∧
      ed25519Verify ssl trackerPublicKey session.signedText signature = true ∧
      session.key = sessionKey ssl ephemeral serverPublic session.signedText ∧ session.key.length = 32 := by
  unfold connectFinish at h
  dsimp only at h
  split at h
  · simp at h
  · next serverPublic hparse =>
    split at h
    · simp at h
    · next signature hsignature =>
      split at h
      · simp at h
      · next hverify =>
        split at h
        · simp at h
        · next hkey =>
          obtain rfl := Option.some.inj h
          obtain ⟨hlen, -, hpublic, -⟩ := parseHello_eq_some hparse
          generalize hfields : split reply (chr '|') = fields at *
          match fields, hlen with
          | [a, b, c, d, e], _ =>
            rw [split_eq] at hfields
            have hfree : ∀ p ∈ [a, b, c, d, e], chr '|' ∉ p := (Delimited.splitOn_eq_iff.mp hfields).2.1
            simp only [List.mem_cons, List.not_mem_nil, or_false, forall_eq_or_imp, forall_eq] at hfree
            refine ⟨b, c, d, serverPublic, signature, rfl, ?_, hpublic, rfl, by simpa using hverify, rfl,
              by simpa using hkey⟩
            rw [Delimited.splitOn_eq_iff]
            refine ⟨by simp, ?_, ?_⟩
            · simp only [List.mem_cons, List.not_mem_nil, or_false, forall_eq_or_imp, forall_eq]
              exact ⟨hfree.2.1, hfree.2.2.1, hfree.2.2.2.1⟩
            · simp [List.intercalate_cons_cons, lit, chr]

/-- What is behind a reply of `accept`. -/
theorem acceptHello_eq_some {identityPrivateKey hello nonce : Bytes} {parsed now : Int} {ephemeral : Option KeyPair}
    {o : Offer} (h : acceptHello ssl identityPrivateKey parsed now ephemeral nonce hello = some o) :
    o.hello = hello ∧ ephemeral = some o.ephemeral ∧ o.nonce = nonce ∧
      o.serverFields = helloFields now o.ephemeral o.nonce ∧ o.signedText = transcript o.hello o.serverFields ∧
      (o.hello.splitOn (chr '|')).length = 4 ∧ fromHex ((o.hello.splitOn (chr '|')).getD 1 []) = some o.clientPublic := by
  unfold acceptHello at h
  split at h
  · simp at h
  · next clientPublic hparse =>
    split at h
    · simp at h
    · next ephemeral =>
      dsimp only at h
      split at h
      · simp at h
      · split at h
        · simp at h
        · obtain rfl := Option.some.inj h
          obtain ⟨hlen, -, hpublic, -⟩ := parseHello_eq_some hparse
          rw [split_eq] at hlen hpublic
          exact ⟨rfl, rfl, rfl, rfl, rfl, hlen, hpublic⟩

end Text

end TorrentAtlas.SecureChannel
