import TorrentAtlas.PeerProtocol
import TorrentAtlas.PieceFile
import TorrentAtlas.SharedFiles

/-!
# Answering peers (`client/peer/peer_server.cpp`)

`respond` is cut where the source's comment cuts it: `authenticate` is every
check made before the request is known to be genuine, and `serve` is the lookup
and what follows. The clock is read once per request here; the source reads it
up to three times within one call.
-/
namespace TorrentAtlas.PeerServer

open Encoding Crypto PeerProtocol

/-- What a request has established once its timestamp has been checked. -/
structure Access where
  ticket : PeerTicket
  key : Bytes
  aad : Bytes
  hexNonce : Bytes
  operation : Bytes
  piece : UInt64
  deriving DecidableEq, Repr

/-- What `open(path)` finds, by C string, and how the `pread` calls go. -/
structure Disk where
  contents : Bytes → Option Bytes
  io : List Transfer

variable (ssl : OpenSsl)

/-- The checks of `respond` up to the freshness of the timestamp; `none` is `DENIED`. -/
def authenticate (peerKey : Bytes) (now : Int) (request : Bytes) : Option Access :=
  let fields := split request (chr '|')
  if fields.length ≠ 5 || fields.getD 0 [] ≠ REQUEST then none
  else
    match PeerTicket.decode (fields.getD 1 []) with
    | none => none
    | some ticket =>
      if ticket.expired now then none
      else
        let key := ticket.key ssl peerKey
        let aad := requestAad (fields.getD 1 [])
        match decode fields 2 with
        | none => none
        | some received =>
          match decrypt ssl key aad received with
          | none => none
          | some plain =>
            match split plain (chr '\n') with
            | [operation, index, stamp] =>
              if !isFreshTimestamp now stamp then none
              else
                match parseU64 index with
                | none => none
                | some piece => some ⟨ticket, key, aad, fields.getD 2 [], operation, piece⟩
            | _ => none

/-- The plaintext of the reply, or `none` for a piece this peer cannot serve. -/
def payload (disk : Disk) (file : LocalFile) (operation : Bytes) (piece : UInt64) : Option Bytes :=
  if operation = lit "BITMAP" then some (file.available.map (fun available => if available then 1 else 0))
  else if operation = lit "GET" && decide (piece.toNat < file.available.length) &&
      file.available.getD piece.toNat false then
    match disk.contents (cStr file.path) with
    | none => none
    | some contents =>
      PieceFile.read contents disk.io piece.toNat (file.metadata.pieceLength piece.toNat)
  else none

/-- The rest of `respond` for a genuine request. -/
def serve (files : SharedFiles) (disk : Disk) (random : Bytes) (access : Access) : Bytes :=
  match files.find access.ticket.group access.ticket.file with
  | none => DENIED
  | some file =>
    match payload disk file access.operation access.piece with
    | none => UNAVAILABLE
    | some reply =>
      match encrypt ssl random access.key (replyAad access.aad access.hexNonce) reply with
      | none => UNAVAILABLE
      | some sent => encode REPLY sent

def respond (peerKey : Bytes) (files : SharedFiles) (disk : Disk) (now : Int) (random request : Bytes) : Bytes :=
  match authenticate ssl peerKey now request with
  | none => DENIED
  | some access => serve ssl files disk random access

/-- A request that proves knowledge of the key of an unexpired ticket within the time window. -/
def Authentic (peerKey : Bytes) (now : Int) (request : Bytes) (ticket : PeerTicket) : Prop :=
  ∃ text nonce ciphertext tag message plain operation index stamp,
    split request (chr '|') = [lit "21", text, nonce, ciphertext, tag] ∧
    PeerTicket.decode text = some ticket ∧ now < ticket.expires ∧
    fromHex nonce = some message.nonce ∧ fromHex ciphertext = some message.ciphertext ∧
    fromHex tag = some message.tag ∧
    decrypt ssl (hmacSha256 ssl peerKey (lit "torrent-peer-ticket-v1|" ++ ticket.encode)) (lit "21|" ++ text)
      message = some plain ∧
    split plain (chr '\n') = [operation, index, stamp] ∧ (∃ piece, parseU64 index = some piece) ∧
    ∃ v, parseU64 stamp = some v ∧ |(v.toNat : Int) - now| ≤ 300

variable {ssl} {peerKey request : Bytes} {now : Int}

/-- Everything `authenticate` has checked when it accepts. -/
theorem authenticate_eq_some {access : Access} :
    authenticate ssl peerKey now request = some access ↔
      ∃ text nonce ciphertext tag message plain index stamp,
        split request (chr '|') = [REQUEST, text, nonce, ciphertext, tag] ∧
        PeerTicket.decode text = some access.ticket ∧ access.ticket.expired now = false ∧
        decode [REQUEST, text, nonce, ciphertext, tag] 2 = some message ∧
        access.key = access.ticket.key ssl peerKey ∧ access.aad = requestAad text ∧ access.hexNonce = nonce ∧
        decrypt ssl access.key access.aad message = some plain ∧
        split plain (chr '\n') = [access.operation, index, stamp] ∧
        isFreshTimestamp now stamp = true ∧ parseU64 index = some access.piece := by
  constructor
  · intro h
    unfold authenticate at h
    dsimp only at h
    split at h
    · simp at h
    · next hshape =>
      simp only [Bool.or_eq_true, decide_eq_true_eq, not_or, ne_eq, not_not] at hshape
      obtain ⟨hfive, hkind⟩ := hshape
      obtain ⟨kind, text, nonce, ciphertext, tag, hfields⟩ :
          ∃ a b c d e, split request (chr '|') = [a, b, c, d, e] := by
        match hs : split request (chr '|'), hfive with
        | [a, b, c, d, e], _ => exact ⟨a, b, c, d, e, rfl⟩
      rw [hfields] at h hkind
      simp only [List.getD_cons_succ, List.getD_cons_zero] at h hkind
      subst hkind
      split at h
      · simp at h
      · next ticket hticket =>
        split at h
        · simp at h
        · next hexpired =>
          split at h
          · simp at h
          · next message hmessage =>
            split at h
            · simp at h
            · next plain hplain =>
              split at h
              · next operation index stamp hparts =>
                split at h
                · simp at h
                · next hfresh =>
                  split at h
                  · simp at h
                  · next piece hpiece =>
                    cases h
                    exact ⟨text, nonce, ciphertext, tag, message, plain, index, stamp, hfields, hticket,
                      by simpa using hexpired, hmessage, rfl, rfl, rfl, hplain, hparts, by simpa using hfresh,
                      hpiece⟩
              · simp at h
  · rintro ⟨text, nonce, ciphertext, tag, message, plain, index, stamp, hfields, hticket, hexpired, hmessage,
      hkey, haad, hnonce, hplain, hparts, hfresh, hpiece⟩
    rw [hkey, haad] at hplain
    cases access
    simp only at *
    subst hkey haad hnonce
    simp [authenticate, hfields, hticket, hexpired, hmessage, hplain, hparts, hfresh, hpiece]

/-- The accepted requests are the authentic ones. -/
theorem authenticate_iff (h₀ : 0 ≤ now) (h₁ : now ≤ 2 ^ 62) (ticket : PeerTicket) :
    (∃ access, authenticate ssl peerKey now request = some access ∧ access.ticket = ticket) ↔
      Authentic ssl peerKey now request ticket := by
  have hexp : ∀ t : PeerTicket, t.expired now = false ↔ now < t.expires := by simp [PeerTicket.expired]
  constructor
  · rintro ⟨access, h, rfl⟩
    obtain ⟨text, nonce, ciphertext, tag, message, plain, index, stamp, hfields, hticket, hexpired, hmessage, hkey,
      haad, -, hplain, hparts, hfresh, hpiece⟩ := authenticate_eq_some.mp h
    obtain ⟨hn, hc, ht⟩ := decode_request_eq_some.mp hmessage
    rw [hkey, haad] at hplain
    exact ⟨text, nonce, ciphertext, tag, message, plain, access.operation, index, stamp, hfields, hticket,
      (hexp _).mp hexpired, hn, hc, ht, hplain, hparts, ⟨_, hpiece⟩, (isFreshTimestamp_iff h₀ h₁ stamp).mp hfresh⟩
  · rintro ⟨text, nonce, ciphertext, tag, message, plain, operation, index, stamp, hfields, hticket, hexpired, hn,
      hc, ht, hplain, hparts, ⟨piece, hpiece⟩, hfresh⟩
    exact ⟨⟨ticket, ticket.key ssl peerKey, requestAad text, nonce, operation, piece⟩,
      authenticate_eq_some.mpr ⟨text, nonce, ciphertext, tag, message, plain, index, stamp, hfields, hticket,
        (hexp _).mpr hexpired, decode_request_eq_some.mpr ⟨hn, hc, ht⟩, rfl, rfl, rfl, hplain, hparts,
        (isFreshTimestamp_iff h₀ h₁ stamp).mpr hfresh, hpiece⟩, rfl⟩

theorem serve_eq_denied (files : SharedFiles) (disk : Disk) (random : Bytes) (access : Access) :
    serve ssl files disk random access = DENIED ↔ files.find access.ticket.group access.ticket.file = none := by
  unfold serve
  split
  · next h => simp [h]
  · next file h =>
    simp only [h, reduceCtorEq, iff_false]
    split
    · decide
    · split
      · decide
      · exact encode_reply_ne_denied _

/-- The reply to a genuine request depends on the shared files only through the ticket's own entry. -/
theorem serve_congr {files files' : SharedFiles} {access : Access} (disk : Disk) (random : Bytes)
    (h : files.find access.ticket.group access.ticket.file = files'.find access.ticket.group access.ticket.file) :
    serve ssl files disk random access = serve ssl files' disk random access := by
  unfold serve
  rw [h]

/-- A peer answers exactly the authentic requests for files it shares; every other request gets one
and the same reply, and an authentic one learns about the ticket's own file only. -/
theorem respond_authorization (ssl : OpenSsl) (peerKey : Bytes) (files : SharedFiles) (disk : Disk) (now : Int)
    (random request : Bytes) (h₀ : 0 ≤ now) (h₁ : now ≤ 2 ^ 62) :
    (respond ssl peerKey files disk now random request ≠ DENIED ↔
      ∃ ticket, Authentic ssl peerKey now request ticket ∧
        ∃ file, files.find ticket.group ticket.file = some file) ∧
    ((¬ ∃ ticket, Authentic ssl peerKey now request ticket) → ∀ files' : SharedFiles,
      respond ssl peerKey files disk now random request = respond ssl peerKey files' disk now random request) ∧
    (∀ ticket, Authentic ssl peerKey now request ticket → ∀ files' : SharedFiles,
      files.find ticket.group ticket.file = files'.find ticket.group ticket.file →
      respond ssl peerKey files disk now random request = respond ssl peerKey files' disk now random request) := by
  cases ha : authenticate ssl peerKey now request with
  | none =>
    have hnone : ¬ ∃ ticket, Authentic ssl peerKey now request ticket := by
      rintro ⟨ticket, hticket⟩
      obtain ⟨access, h, -⟩ := (authenticate_iff h₀ h₁ ticket).mpr hticket
      simp [ha] at h
    have hdenied : ∀ files, respond ssl peerKey files disk now random request = DENIED := by simp [respond, ha]
    refine ⟨⟨fun h => absurd (hdenied files) h, fun ⟨ticket, h, _⟩ => absurd ⟨ticket, h⟩ hnone⟩, ?_, ?_⟩
    · intro _ files'
      rw [hdenied, hdenied]
    · intro ticket h
      exact absurd ⟨ticket, h⟩ hnone
  | some access =>
    have hmine : Authentic ssl peerKey now request access.ticket := (authenticate_iff h₀ h₁ _).mp ⟨access, ha, rfl⟩
    have honly : ∀ ticket, Authentic ssl peerKey now request ticket → ticket = access.ticket := by
      intro ticket h
      obtain ⟨access', ha', rfl⟩ := (authenticate_iff h₀ h₁ ticket).mpr h
      rw [Option.some.inj (ha'.symm.trans ha)]
    have hserve : ∀ files, respond ssl peerKey files disk now random request =
        serve ssl files disk random access := by simp [respond, ha]
    refine ⟨?_, fun h => absurd ⟨_, hmine⟩ h, ?_⟩
    · rw [hserve, ne_eq, serve_eq_denied, ← ne_eq, Option.ne_none_iff_exists']
      constructor
      · exact fun h => ⟨access.ticket, hmine, h⟩
      · rintro ⟨ticket, h, hfile⟩
        rwa [honly ticket h] at hfile
    · intro ticket h files' hfind
      rw [honly ticket h] at hfind
      rw [hserve, hserve]
      exact serve_congr disk random hfind

section Example

def examplePeerKey : Bytes := ofHex 32 0x202122232425262728292a2b2c2d2e2f303132333435363738393a3b3c3d3e3f
def exampleKey : Bytes := ofHex 32 0x25d827585b3543c6f49d240652b90ff8c94f50eb9688c2cc3d9c2b0fc3ec3aff
def exampleNonce : Bytes := ofHex 12 0x707172737475767778797a7b
def exampleReplyNonce : Bytes := ofHex 12 0x7c7d7e7f8081828384858687
def exampleTicket : PeerTicket := ⟨lit "bob", lit "g", lit "f", 1300⟩

/-- Bob asks for piece 0 of a five-byte file at time 1100. -/
def exampleMessage : AesGcmMessage :=
  ⟨exampleNonce, ofHex 10 0x31a79cca33aa8d3b9302, ofHex 16 0xdd0e34e7ddc636b599ec4d39ee11007a⟩

def exampleReply : AesGcmMessage :=
  ⟨exampleReplyNonce, ofHex 5 0xcdea1c584f, ofHex 16 0xef060fe8381e6399e2783968b0feb3f4⟩

def exchange : Recording where
  hmac := [((examplePeerKey, lit "torrent-peer-ticket-v1|626f62.67.66.1300"), exampleKey)]
  sealed := [
    ⟨exampleKey, exampleNonce, lit "21|626f62.67.66.1300", lit "GET\n0\n1100", exampleMessage.ciphertext,
      exampleMessage.tag⟩,
    ⟨exampleKey, exampleReplyNonce, lit "30|21|626f62.67.66.1300|707172737475767778797a7b", lit "hello",
      exampleReply.ciphertext, exampleReply.tag⟩]

def exampleFile : LocalFile :=
  ⟨lit "/srv/f", ⟨5, lit "aaf4c61ddcc5e8a2dabede0f3b482cd9aea9434d", [lit "aaf4c61ddcc5e8a2dabede0f3b482cd9aea9434d"]⟩,
    [true]⟩

theorem respond_authorization_hello :
    respond exchange.replay examplePeerKey (SharedFiles.empty.add (lit "g") (lit "f") exampleFile)
      ⟨fun _ => some (lit "hello"), []⟩ 1100 exampleReplyNonce
      (encode (lit "21|626f62.67.66.1300") exampleMessage) ≠ DENIED := by
  refine (respond_authorization exchange.replay examplePeerKey _ _ 1100 exampleReplyNonce _ (by decide)
    (by decide)).1.mpr ⟨exampleTicket, ?_, exampleFile, by decide +kernel⟩
  exact ⟨lit "626f62.67.66.1300", toHex exampleMessage.nonce, toHex exampleMessage.ciphertext,
    toHex exampleMessage.tag, exampleMessage, lit "GET\n0\n1100", lit "GET", lit "0", lit "1100",
    by decide +kernel, by decide +kernel, by decide, by decide +kernel, by decide +kernel, by decide +kernel,
    by decide +kernel, by decide +kernel, ⟨0, by decide +kernel⟩, 1100, by decide +kernel, by decide +kernel⟩

end Example

end TorrentAtlas.PeerServer
