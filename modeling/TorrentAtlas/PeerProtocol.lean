import TorrentAtlas.PeerTicket

/-!
# Frames between peers (`client/peer/peer_protocol.{hpp,cpp}`)

A request carries its ticket in the clear and everything else encrypted under
the ticket's key; the reply is bound to the hex text of the request's nonce.
-/
namespace TorrentAtlas.PeerProtocol

open Encoding Crypto

def REQUEST : Bytes := lit "21"
def REPLY : Bytes := lit "30"
def ERROR : Bytes := lit "60"
def DENIED : Bytes := ERROR ++ lit "|denied"
def UNAVAILABLE : Bytes := ERROR ++ lit "|unavailable"

def requestAad (ticket : Bytes) : Bytes := REQUEST ++ lit "|" ++ ticket

def replyAad (requestAad hexRequestNonce : Bytes) : Bytes :=
  REPLY ++ lit "|" ++ requestAad ++ lit "|" ++ hexRequestNonce

def encode (head : Bytes) (message : AesGcmMessage) : Bytes :=
  head ++ lit "|" ++ toHex message.nonce ++ lit "|" ++ toHex message.ciphertext ++ lit "|" ++ toHex message.tag

/-- Nonce, ciphertext and tag from `fields[first .. first + 2]`. -/
def decode (fields : List Bytes) (first : Nat) : Option AesGcmMessage :=
  if fields.length < first + 3 then none
  else
    match fromHex (fields.getD first []), fromHex (fields.getD (first + 1) []),
        fromHex (fields.getD (first + 2) []) with
    | some nonce, some ciphertext, some tag => some ⟨nonce, ciphertext, tag⟩
    | _, _, _ => none

variable (ssl : OpenSsl)

/-- The frame to send and its nonce, for the clock value and random bytes given. -/
def makeRequest (now : Int) (random ticket key operation : Bytes) (piece : Nat) : Option (Bytes × Bytes) :=
  let aad := requestAad ticket
  let plain := operation ++ lit "\n" ++ decimal piece ++ lit "\n" ++ decimalInt now
  (encrypt ssl random key aad plain).map (fun message => (encode aad message, message.nonce))

def openReply (ticket key nonce frame : Bytes) : Option Bytes :=
  let fields := split frame (chr '|')
  if fields.length = 4 && fields.getD 0 [] == REPLY then
    match decode fields 1 with
    | none => none
    | some message => decrypt ssl key (replyAad (requestAad ticket) (toHex nonce)) message
  else none

/-- The fields of an encoded message after a head without bars. -/
theorem split_encode {head : Bytes} (h : chr '|' ∉ head) (m : AesGcmMessage) :
    split (encode head m) (chr '|') = [head, toHex m.nonce, toHex m.ciphertext, toHex m.tag] := by
  have hx : ∀ b : Bytes, chr '|' ∉ toHex b := not_mem_toHex (by decide)
  rw [split_eq, Delimited.splitOn_eq_iff]
  refine ⟨by simp, ?_, ?_⟩
  · simp only [List.mem_cons, List.not_mem_nil, or_false, forall_eq_or_imp, forall_eq]
    exact ⟨h, hx _, hx _, hx _⟩
  · simp [encode, List.intercalate_cons_cons, lit, chr]

theorem split_encode_requestAad {ticket : Bytes} (h : chr '|' ∉ ticket) (m : AesGcmMessage) :
    split (encode (requestAad ticket) m) (chr '|') =
      [REQUEST, ticket, toHex m.nonce, toHex m.ciphertext, toHex m.tag] := by
  have hx : ∀ b : Bytes, chr '|' ∉ toHex b := not_mem_toHex (by decide)
  rw [split_eq, Delimited.splitOn_eq_iff]
  refine ⟨by simp, ?_, ?_⟩
  · simp only [List.mem_cons, List.not_mem_nil, or_false, forall_eq_or_imp, forall_eq]
    exact ⟨by decide, h, hx _, hx _, hx _⟩
  · simp [encode, requestAad, REQUEST, List.intercalate_cons_cons, lit, chr]

theorem decode_hex_request (kind ticket : Bytes) (m : AesGcmMessage) :
    decode [kind, ticket, toHex m.nonce, toHex m.ciphertext, toHex m.tag] 2 = some m := by
  simp [decode]

theorem decode_hex_reply (kind : Bytes) (m : AesGcmMessage) :
    decode [kind, toHex m.nonce, toHex m.ciphertext, toHex m.tag] 1 = some m := by
  simp [decode]

/-- Fields that decode, for a frame of the request's shape. -/
theorem decode_request_eq_some {kind ticket nonce ciphertext tag : Bytes} {m : AesGcmMessage} :
    decode [kind, ticket, nonce, ciphertext, tag] 2 = some m ↔
      fromHex nonce = some m.nonce ∧ fromHex ciphertext = some m.ciphertext ∧ fromHex tag = some m.tag := by
  cases m
  simp only [decode, List.length_cons, List.length_nil, List.getD_cons_succ, List.getD_cons_zero]
  cases fromHex nonce <;> cases fromHex ciphertext <;> cases fromHex tag <;> simp

/-- No encrypted reply looks like an error reply. -/
theorem encode_reply_ne_denied (m : AesGcmMessage) : encode REPLY m ≠ DENIED := by
  intro h
  have := congrArg (fun b : Bytes => b.head?) h
  simp [encode, REPLY, DENIED, ERROR, lit] at this

end TorrentAtlas.PeerProtocol
