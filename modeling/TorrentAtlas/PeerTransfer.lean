import TorrentAtlas.Delivery
import TorrentAtlas.EndToEnd
import TorrentAtlas.Transport

/-!
# A request to a peer (`client/peer/peer_client.cpp`, `client/peer/peer_server.cpp`)

`PeerClient::request` and the handler of `PeerServer` as programs on their sockets. An
honest seeder answers with what it has, or the request fails in the network; so it keeps
its pieces in the sense of a download.
-/
namespace TorrentAtlas

open Encoding Crypto PeerProtocol

/-- `request` from the response on. -/
def PeerClient.readResponse (ssl : OpenSsl) (seeder : SeederAccess) (nonce response : Bytes) : Outcome :=
  if response = UNAVAILABLE then (.unavailable, [])
  else
    match openReply ssl seeder.ticket seeder.key nonce response with
    | none => (.authenticationFailure, [])
    | some reply => (.success, reply)

/-- `connected` says whether `Socket::connect` succeeded. -/
def PeerClient.request (ssl : OpenSsl) (seeder : SeederAccess) (connected : Bool) (stamp : Int) (random : Bytes)
    (operation : Bytes) (piece : Nat) : Talk Bytes Outcome :=
  match makeRequest ssl stamp random seeder.ticket seeder.key operation piece with
  | none => pure (.authenticationFailure, [])
  | some (frame, nonce) =>
    if !connected then pure (.networkFailure, [])
    else do
      if !(← Talk.say frame) then pure (.networkFailure, [])
      else
        match ← Talk.hear with
        | none => pure (.networkFailure, [])
        | some response => pure (readResponse ssl seeder nonce response)

/-- The handler of the peer's server; whether the reply got out makes no difference to it. -/
def PeerServer.connection (ssl : OpenSsl) (peerKey : Bytes) (files : SharedFiles) (disk : PeerServer.Disk) (now : Int)
    (random : Bytes) : Talk Bytes Unit := do
  match ← Talk.hear with
  | none => pure ()
  | some request =>
    let _ ← Talk.say (respond ssl peerKey files disk now random request)
    pure ()

/-- What an honest seeder has to say. -/
def PeerServer.answer (disk : PeerServer.Disk) (file : LocalFile) (operation : Bytes) (piece : Nat) : Outcome :=
  match payload disk file operation (UInt64.ofNat piece) with
  | some reply => (.success, reply)
  | none => (.unavailable, [])

section Transfer

variable {ssl : OpenSsl} {ticket : PeerTicket} {peerKey : Bytes} {files : SharedFiles} {file : LocalFile}
  {disk : PeerServer.Disk} {now stamp : Int} {random replyRandom operation : Bytes} {piece : Nat} {e : Endpoint}
  {connected : Bool} {seeder : SeederAccess}

theorem request_careful :
    (PeerClient.request ssl seeder connected stamp random operation piece).Careful (· = (.networkFailure, [])) := by
  unfold PeerClient.request
  split
  · trivial
  · split
    · trivial
    · exact ⟨⟨_, rfl, rfl⟩, ⟨_, rfl, rfl⟩, fun response => trivial⟩

theorem serve_careful :
    (PeerServer.connection ssl peerKey files disk now random).Careful (fun _ => True) :=
  ⟨⟨(), trivial, rfl⟩, fun _ => ⟨⟨(), trivial, rfl⟩, trivial⟩⟩

theorem length_encode (head : Bytes) {key random aad plain : Bytes} {m : AesGcmMessage}
    (h : encrypt ssl random key aad plain = some m) : (encode head m).length = head.length + 2 * plain.length + 59 := by
  obtain ⟨-, hrandom, -, -, hnonce, hcipher, htag, -⟩ := encrypt_eq_some ssl h
  have hbar : (lit "|").length = 1 := rfl
  simp only [encode, List.length_append, length_toHex, hnonce, hrandom, hcipher, htag, hbar, NONCE_SIZE, TAG_SIZE]
  omega

theorem length_makeRequest {ticket key frame nonce : Bytes}
    (hoperation : operation = lit "BITMAP" ∨ operation = lit "GET")
    (hpiece : piece < u64Bound) (hstamp : 0 ≤ stamp) (hclock : stamp ≤ 2 ^ 62 + 300)
    (h : makeRequest ssl stamp random ticket key operation piece = some (frame, nonce)) :
    frame.length ≤ (requestAad ticket).length + 200 := by
  obtain ⟨m, hm, hframe⟩ := Option.map_eq_some_iff.mp h
  have hdecimal : decimalInt stamp = decimal stamp.toNat := by
    rw [decimalInt, if_neg (by omega)]
    congr 1
    omega
  have hindex := length_decimal_le (show 0 < 20 by decide) (show piece < 10 ^ 20 by
    simp only [u64Bound] at hpiece
    omega)
  have htime := length_decimal_le (show 0 < 20 by decide) (show stamp.toNat < 10 ^ 20 by omega)
  have hname : operation.length ≤ 6 := by rcases hoperation with rfl | rfl <;> decide
  have hnl : (lit "\n").length = 1 := rfl
  obtain rfl : encode (requestAad ticket) m = frame := congrArg Prod.fst hframe
  rw [length_encode _ hm]
  simp only [List.length_append, hdecimal, hnl]
  omega

/-- A payload is a bitmap or at most one piece. -/
theorem length_payload_le {disk : PeerServer.Disk} {index : UInt64} {plain : Bytes}
    (h : PeerServer.payload disk file operation index = some plain) :
    plain.length ≤ max file.available.length PIECE_SIZE := by
  unfold PeerServer.payload at h
  split at h
  · rw [← Option.some.inj h, List.length_map]
    exact le_max_left _ _
  · split at h
    · split at h
      · simp at h
      · rw [(PieceFile.read_eq_some h).1]
        exact le_max_of_le_right (file.metadata.pieceLength_le _)
    · simp at h

/-- The reply to a genuine request fits a frame if the bitmap does. -/
theorem length_serve_le {access : PeerServer.Access}
    (hfile : files.find access.ticket.group access.ticket.file = some file)
    (hcount : 2 * file.available.length + 61 ≤ MAX_FRAME) (disk : PeerServer.Disk) :
    (PeerServer.serve ssl files disk replyRandom access).length ≤ MAX_FRAME := by
  have hconstant : UNAVAILABLE.length ≤ MAX_FRAME := by decide
  unfold PeerServer.serve
  rw [hfile]
  dsimp only
  split
  · exact hconstant
  · next plain hplain =>
    split
    · exact hconstant
    · next sent hsent =>
      have hbound := length_payload_le hplain
      have hhead : REPLY.length = 2 := rfl
      rw [length_encode _ hsent, hhead]
      simp only [PIECE_SIZE, MAX_FRAME] at *
      omega

theorem openReply_unavailable (ticket key nonce : Bytes) : openReply ssl ticket key nonce UNAVAILABLE = none := by
  have hsplit : split UNAVAILABLE (chr '|') = [lit "60", lit "unavailable"] := by decide +kernel
  simp [openReply, hsplit]

/-- An honest seeder's response says what it has. -/
theorem readResponse_respond (h : Servable ssl ticket peerKey files file now stamp random replyRandom)
    (hoperation : operation = lit "BITMAP" ∨ operation = lit "GET") (hpiece : piece < u64Bound)
    (hcount : 2 * file.available.length + 61 ≤ MAX_FRAME) (disk : PeerServer.Disk) :
    ∃ frame, makeRequest ssl stamp random ticket.encode (ticket.key ssl peerKey) operation piece = some (frame, random) ∧
      PeerClient.readResponse ssl ⟨e, ticket.encode, ticket.key ssl peerKey⟩ random
        (PeerServer.respond ssl peerKey files disk now replyRandom frame) = PeerServer.answer disk file operation piece ∧
      (PeerServer.respond ssl peerKey files disk now replyRandom frame).length ≤ MAX_FRAME := by
  have hshape : chr '\n' ∉ operation ∧ operation.length ≤ MAX_FRAME := by
    rcases hoperation with rfl | rfl <;> decide
  obtain ⟨frame, hframe, hrespond⟩ := @Servable.respond_eq _ _ _ _ _ disk _ _ _ _ _ _ h hshape.1 hshape.2 hpiece
  refine ⟨frame, hframe, ?_, by rw [hrespond]; exact length_serve_le h.hfile hcount disk⟩
  rw [hrespond]
  unfold PeerServer.answer
  cases hpayload : PeerServer.payload disk file operation (UInt64.ofNat piece) with
  | none =>
    simp only [PeerServer.serve, h.hfile, hpayload]
    rfl
  | some plain =>
    have hplain : fitsInt plain.length = true := by
      have hbound := length_payload_le hpayload
      rw [fitsInt, decide_eq_true_eq]
      simp only [PIECE_SIZE, INT_MAX, MAX_FRAME] at *
      omega
    have hopen := @openReply_serve ssl h.hgcm files disk file random replyRandom plain
      ⟨ticket, ticket.key ssl peerKey, requestAad ticket.encode, toHex random, operation, UInt64.ofNat piece⟩
      ticket.encode h.hfile hpayload h.hkey rfl rfl h.hreply h.hrandom h.hfits hplain
    have hserved : PeerServer.serve ssl files disk replyRandom ⟨ticket, ticket.key ssl peerKey,
        requestAad ticket.encode, toHex random, operation, UInt64.ofNat piece⟩ ≠ UNAVAILABLE := by
      intro hno
      rw [hno, openReply_unavailable] at hopen
      simp at hopen
    simp only [PeerClient.readResponse, if_neg hserved, hopen]

theorem ends_transfer (h : Servable ssl ticket peerKey files file now stamp random replyRandom)
    (hoperation : operation = lit "BITMAP" ∨ operation = lit "GET") (hpiece : piece < u64Bound)
    (hcount : 2 * file.available.length + 61 ≤ MAX_FRAME) (disk : PeerServer.Disk) :
    Talk.Ends Socket.transport.fits
      (fun outcome _ => outcome = (.networkFailure, []) ∨ outcome = PeerServer.answer disk file operation piece)
      (PeerClient.request ssl ⟨e, ticket.encode, ticket.key ssl peerKey⟩ connected stamp random operation piece)
      (PeerServer.connection ssl peerKey files disk now replyRandom) := by
  obtain ⟨frame, hframe, hread, -⟩ := @readResponse_respond _ _ _ _ _ _ _ _ _ _ _ e h hoperation hpiece hcount disk
  unfold PeerClient.request
  simp only [hframe]
  split
  · exact Or.inl rfl
  · refine ⟨fun _ => ⟨fun _ => Or.inr hread, fun ok => ?_⟩, fun ok => ?_⟩
    · cases ok <;> exact Or.inl rfl
    · cases ok <;> exact Or.inl rfl

theorem settle_transfer (h : Servable ssl ticket peerKey files file now stamp random replyRandom)
    (hoperation : operation = lit "BITMAP" ∨ operation = lit "GET") (hpiece : piece < u64Bound)
    (hcount : 2 * file.available.length + 61 ≤ MAX_FRAME) (hticket : (requestAad ticket.encode).length + 200 ≤ MAX_FRAME)
    (disk : PeerServer.Disk) :
    Talk.settle Socket.transport.fits
      (PeerClient.request ssl ⟨e, ticket.encode, ticket.key ssl peerKey⟩ true stamp random operation piece)
      (PeerServer.connection ssl peerKey files disk now replyRandom) =
        some (PeerServer.answer disk file operation piece, ()) := by
  obtain ⟨frame, hframe, hread, hreply⟩ := @readResponse_respond _ _ _ _ _ _ _ _ _ _ _ e h hoperation hpiece hcount disk
  have hclock : stamp ≤ 2 ^ 62 + 300 := by
    have hbound := (PeerTicket.decode_eq_some h.hdecode).2.2.2.2
    have hexpires := h.hexpires
    have habs := abs_le.mp h.hfresh
    omega
  have hfits : Socket.transport.fits frame = true :=
    decide_eq_true (le_trans (length_makeRequest hoperation hpiece h.hstamp hclock hframe) hticket)
  have hfits' : Socket.transport.fits (PeerServer.respond ssl peerKey files disk now replyRandom frame) = true :=
    decide_eq_true hreply
  unfold PeerClient.request PeerServer.connection
  simp only [hframe, Bool.not_true, Bool.false_eq_true, if_false, Talk.say_bind, Talk.hear_bind, Talk.pure_eq,
    Talk.settle, hfits, hfits', if_true, hread]

/-- The local file of a seeder describes `contents`, and what it calls available is on the disk. -/
structure Stores (ssl : OpenSsl) (file : LocalFile) (disk : PeerServer.Disk) (contents : Bytes) : Prop where
  describes : file.metadata.Describes ssl contents
  flags : file.available.length = file.metadata.pieceCount
  stored : ∃ stored, disk.contents (cStr file.path) = some stored ∧ ∀ i, file.available[i]? = some true →
    file.metadata.Holds contents stored i ∧ PieceFile.pieceOffset i + file.metadata.pieceLength i ≤ stored.length
  io : .failed ∉ disk.io

variable {contents : Bytes}

theorem fetchBitmap_answer (h : Stores ssl file disk contents) :
    PeerClient.fetchBitmap file.metadata.pieceCount (PeerServer.answer disk file (lit "BITMAP") piece) =
      (.success, file.available) := by
  have hmap : (file.available.map (fun available => if available then (1 : UInt8) else 0)).map (fun b => b != 0) =
      file.available := by
    rw [List.map_map]
    conv_rhs => rw [← List.map_id file.available]
    refine List.map_congr_left fun flag _ => ?_
    cases flag <;> rfl
  simp only [PeerServer.answer, PeerServer.payload, if_true, PeerClient.fetchBitmap, List.length_map, h.flags, ne_eq,
    not_true_eq_false, if_false, hmap]

theorem answer_piece (h : Stores ssl file disk contents) {i : Nat} (hi : i < file.metadata.pieceCount) :
    PeerServer.answer disk file (lit "GET") i = if file.available[i]? = some true then
      (.success, file.metadata.piece contents i) else (.unavailable, []) := by
  have hbound : i < u64Bound := by
    rw [h.describes.count] at hi
    exact hi.trans (UInt64.toNat_lt _)
  obtain ⟨stored, hstored, hpieces⟩ := h.stored
  rw [PeerServer.answer, PeerServer.payload_get hbound]
  by_cases hflag : file.available[i]? = some true
  · obtain ⟨hholds, hend⟩ := hpieces i hflag
    simp only [if_pos hflag, hstored, Option.bind_some, PieceFile.read_of_complete hend h.io]
    rw [← FileMetadata.holds_iff.mp hholds]
    rfl
  · simp only [if_neg hflag]

/-- What an honest seeder answers is what a download asks of a keeper. -/
theorem delivers_answer (h : Stores ssl file disk contents) {d : Download} {keeper : Nat → Nat} {k : Nat}
    (hmetadata : d.metadata = file.metadata)
    (hkept : ∀ i < file.metadata.pieceCount, keeper i = k → file.available[i]? = some true) :
    (∀ clock located, d.phase = .asking k →
      d.delivers contents keeper (.main (.reply clock located (PeerServer.answer disk file (lit "BITMAP") 0))) = true) ∧
    ∀ j i attempt clock located, d.workers[j]? = some (.requesting i attempt k) → i < file.metadata.pieceCount →
      d.delivers contents keeper (.worker j (.reply clock located (PeerServer.answer disk file (lit "GET") i))) =
        true := by
  refine ⟨fun clock located hphase => ?_, fun j i attempt clock located hworker hi => ?_⟩
  · have hbitmap := @fetchBitmap_answer _ _ _ 0 _ h
    simp only [Download.delivers, hphase, hmetadata, hbitmap, decide_eq_true_eq, Bool.and_eq_true, ne_eq, reduceCtorEq,
      not_false_eq_true, decide_true, true_and]
    intro i hi hkeeper
    rw [List.getD_eq_getElem?_getD, hkept i hi hkeeper]
    rfl
  · simp only [Download.delivers, hworker, hmetadata, Bool.and_eq_true, Bool.or_eq_true, decide_eq_true_eq, ne_eq,
      reduceCtorEq, not_false_eq_true, true_and]
    by_cases hkeeper : k = keeper i
    · right
      rw [answer_piece h hi, if_pos (hkept i hi hkeeper.symm)]
    · exact Or.inl hkeeper

end Transfer

/-- A request to a seeder that shares the file, over any two sockets, either fails in the network or brings exactly what
the seeder has; it brings that if no transfer fails. So it never looks forged or damaged, and a download may count on an
honest seeder for every piece it has. -/
theorem transfer_over_streams (ssl : OpenSsl) (ticket : PeerTicket) (peerKey : Bytes) (files : SharedFiles)
    (file : LocalFile) (now stamp : Int) (random replyRandom : Bytes)
    (h : Servable ssl ticket peerKey files file now stamp random replyRandom)
    (hcount : 2 * file.available.length + 61 ≤ MAX_FRAME) (e : Endpoint) (disk : PeerServer.Disk) :
    (∀ (connected : Bool) (operation : Bytes) (piece : Nat) (io io' : List Transfer),
      operation = lit "BITMAP" ∨ operation = lit "GET" → piece < u64Bound →
      (∃ outcome, Talk.Together Socket.transport
        (PeerClient.request ssl ⟨e, ticket.encode, ticket.key ssl peerKey⟩ connected stamp random operation piece)
        (PeerServer.connection ssl peerKey files disk now replyRandom) io io' outcome ()) ∧
      ∀ outcome, Talk.Together Socket.transport
          (PeerClient.request ssl ⟨e, ticket.encode, ticket.key ssl peerKey⟩ connected stamp random operation piece)
          (PeerServer.connection ssl peerKey files disk now replyRandom) io io' outcome () →
        (outcome = (.networkFailure, []) ∨ outcome = PeerServer.answer disk file operation piece) ∧
        (connected = true → (requestAad ticket.encode).length + 200 ≤ MAX_FRAME → .failed ∉ io → .failed ∉ io' →
          outcome = PeerServer.answer disk file operation piece)) ∧
    ∀ contents, Stores ssl file disk contents →
      PeerClient.fetchBitmap file.metadata.pieceCount (PeerServer.answer disk file (lit "BITMAP") 0) =
        (.success, file.available) ∧
      (∀ i < file.metadata.pieceCount, PeerServer.answer disk file (lit "GET") i =
        if file.available[i]? = some true then (.success, file.metadata.piece contents i) else (.unavailable, [])) ∧
      ∀ (d : Download) (keeper : Nat → Nat) (k : Nat), d.metadata = file.metadata →
        (∀ i < file.metadata.pieceCount, keeper i = k → file.available[i]? = some true) →
        (∀ clock located, d.phase = .asking k → d.delivers contents keeper
          (.main (.reply clock located (PeerServer.answer disk file (lit "BITMAP") 0))) = true) ∧
        ∀ j i attempt clock located, d.workers[j]? = some (.requesting i attempt k) → i < file.metadata.pieceCount →
          d.delivers contents keeper
            (.worker j (.reply clock located (PeerServer.answer disk file (lit "GET") i))) = true := by
  refine ⟨fun connected operation piece io io' hoperation hpiece => ?_, fun contents hstores =>
    ⟨fetchBitmap_answer hstores, fun i hi => answer_piece hstores hi, fun d keeper k hmetadata hkept =>
      delivers_answer hstores hmetadata hkept⟩⟩
  have hends := @ends_transfer _ _ _ _ _ _ _ _ _ _ _ e connected h hoperation hpiece hcount disk
  obtain ⟨outcome, u, htogether⟩ := hends.exists_together request_careful serve_careful io io'
  refine ⟨⟨outcome, htogether⟩, fun outcome htogether =>
    ⟨hends.together request_careful serve_careful htogether, fun hconnected hticket hio hio' => ?_⟩⟩
  subst hconnected
  have hsettle := @settle_transfer _ _ _ _ _ _ _ _ _ _ _ e h hoperation hpiece hcount hticket disk
  exact congrArg Prod.fst (Talk.settle_together hsettle request_careful serve_careful hio hio' htogether)

section Example

open PeerServer

/-- Bob fetches the only piece of a file from Alice. -/
def fetchedHello : Recording := { exchange with sha1 := Attempt.helloRecording.sha1 }

/-- Alice has the file. -/
theorem stores_hello {ssl : OpenSsl} {io : List Transfer}
    (hmetadata : exampleFile.metadata = PieceFile.hash ssl (lit "hello"))
    (hunique : Attempt.UniquePieces ssl (lit "hello")) (hio : .failed ∉ io) :
    Stores ssl exampleFile ⟨fun _ => some (lit "hello"), io⟩ (lit "hello") := by
  have hdescribes : exampleFile.metadata.Describes ssl (lit "hello") := by
    rw [hmetadata]
    exact Attempt.describes_hash (by decide) hunique
  refine ⟨hdescribes, rfl, ⟨lit "hello", rfl, fun i hi => ?_⟩, hio⟩
  have hzero : i = 0 := by
    by_contra hne
    rw [show exampleFile.available = [true] from rfl, List.getElem?_eq_none (by simp; omega)] at hi
    simp at hi
  subst hzero
  exact ⟨FileMetadata.holds_iff.mpr rfl, by decide +kernel⟩

theorem transfer_over_streams_hello : ∃ outcome, Talk.Together Socket.transport
    (PeerClient.request fetchedHello.replay ⟨⟨lit "10.0.0.1", 6881⟩, exampleTicket.encode, exampleKey⟩ true 1100
      exampleNonce (lit "GET") 0)
    (PeerServer.connection fetchedHello.replay examplePeerKey (SharedFiles.empty.add (lit "g") (lit "f") exampleFile)
      ⟨fun _ => some (lit "hello"), [.interrupted, .upTo 1]⟩ 1100 exampleReplyNonce)
    [.upTo 2, .interrupted] [.upTo 0, .upTo 30] outcome () ∧ outcome = (.success, lit "hello") := by
  have hkey : exampleTicket.key fetchedHello.replay examplePeerKey = exampleKey := by decide +kernel
  have hservable : Servable fetchedHello.replay exampleTicket examplePeerKey
      (SharedFiles.empty.add (lit "g") (lit "f") exampleFile) exampleFile 1100 1100 exampleNonce exampleReplyNonce :=
    ⟨Recording.gcmCorrect (by decide +kernel), by decide +kernel, by rw [hkey]; decide, by decide +kernel,
      by decide +kernel, by decide, by decide, by decide, by decide, by decide⟩
  have hall := transfer_over_streams fetchedHello.replay exampleTicket examplePeerKey
    (SharedFiles.empty.add (lit "g") (lit "f") exampleFile) exampleFile 1100 1100 exampleNonce exampleReplyNonce
    hservable (by decide) ⟨lit "10.0.0.1", 6881⟩ ⟨fun _ => some (lit "hello"), [.interrupted, .upTo 1]⟩
  rw [hkey] at hall
  obtain ⟨⟨outcome, htogether⟩, hcalm⟩ := hall.1 true (lit "GET") 0 [.upTo 2, .interrupted] [.upTo 0, .upTo 30]
    (Or.inr rfl) (by decide)
  have houtcome := (hcalm outcome htogether).2 rfl (by decide +kernel) (by decide) (by decide)
  have hunique : Attempt.UniquePieces fetchedHello.replay (lit "hello") :=
    Attempt.uniquePieces_replay (by decide +kernel) (by decide +kernel) (by decide +kernel) (by decide +kernel)
  refine ⟨outcome, htogether, houtcome.trans ?_⟩
  rw [(hall.2 (lit "hello") (stores_hello (by decide +kernel) hunique (by decide))).2.1 0 (by decide)]
  decide +kernel

end Example

end TorrentAtlas
