import TorrentAtlas.Framing
import TorrentAtlas.Locate

/-!
# From a share to a served piece

The line an honest client sends registers exactly its endpoint and key; the reply
to any member carries an access for it whatever other entries say; and a request
made with that access is accepted and answered, so that the downloader reads back
what the seeder has.
-/
namespace TorrentAtlas

open Encoding Crypto PeerProtocol

namespace PeerProtocol

variable {ssl : OpenSsl}

theorem openReply_encode (ticket key nonce : Bytes) (m : AesGcmMessage) :
    openReply ssl ticket key nonce (encode REPLY m) =
      decrypt ssl key (replyAad (requestAad ticket) (toHex nonce)) m := by
  simp only [openReply, split_encode (show chr '|' ∉ REPLY by decide), decode_hex_reply]
  rfl

/-- A request as `makeRequest` writes it is accepted by the seeder its key was made for. -/
theorem authenticate_makeRequest (hgcm : GcmCorrect ssl) {ticket : PeerTicket} {peerKey random operation : Bytes}
    {now stamp : Int} {piece : Nat} (hdecode : PeerTicket.decode ticket.encode = some ticket)
    (hkey : (ticket.key ssl peerKey).length = 32) (hexpires : now < ticket.expires) (hstamp : 0 ≤ stamp)
    (hfresh : |stamp - now| ≤ 300) (hoperation : chr '\n' ∉ operation) (hpiece : piece < u64Bound)
    (hrandom : random.length = NONCE_SIZE) (haad : fitsInt (requestAad ticket.encode).length = true)
    (hplain : operation.length ≤ MAX_FRAME) :
    ∃ frame, makeRequest ssl stamp random ticket.encode (ticket.key ssl peerKey) operation piece =
        some (frame, random) ∧
      PeerServer.authenticate ssl peerKey now frame = some ⟨ticket, ticket.key ssl peerKey,
        requestAad ticket.encode, toHex random, operation, UInt64.ofNat piece⟩ := by
  have hbound := (PeerTicket.decode_eq_some hdecode).2.2.2.2
  have habs := abs_le.mp hfresh
  have hdecimal : decimalInt stamp = decimal stamp.toNat := by
    rw [decimalInt, if_neg (by omega)]
    congr 1
    omega
  have hsmall : stamp.toNat < u64Bound := by
    simp only [u64Bound]
    omega
  generalize hp : operation ++ lit "\n" ++ decimal piece ++ lit "\n" ++ decimalInt stamp = plain
  have hlen : plain.length ≤ MAX_FRAME + 42 := by
    have h₁ := length_decimal_le (show 0 < 20 by decide) (show piece < 10 ^ 20 by simp only [u64Bound] at hpiece; omega)
    have h₂ := length_decimal_le (show 0 < 20 by decide)
      (show stamp.toNat < 10 ^ 20 by simp only [u64Bound] at hsmall; omega)
    rw [← hp, hdecimal]
    simp only [List.length_append]
    have hnl : (lit "\n").length = 1 := rfl
    omega
  have hfit : fitsInt plain.length = true := by
    rw [fitsInt, decide_eq_true_eq]
    simp only [INT_MAX, MAX_FRAME] at *
    omega
  obtain ⟨m, hm⟩ := encrypt_isSome ssl hgcm hkey hrandom haad hfit
  have hnonce : m.nonce = random := (encrypt_eq_some ssl hm).2.2.2.2.1
  have hbar : chr '|' ∉ ticket.encode := by
    intro hb
    rcases PeerTicket.mem_encode hb with h | h | h | h <;> exact absurd h (by decide)
  have hsplit : split plain (chr '\n') = [operation, decimal piece, decimalInt stamp] := by
    rw [split_eq, Delimited.splitOn_eq_iff]
    refine ⟨by simp, ?_, ?_⟩
    · simp only [List.mem_cons, List.not_mem_nil, or_false, forall_eq_or_imp, forall_eq]
      exact ⟨hoperation, not_mem_decimal (by decide) _, hdecimal ▸ not_mem_decimal (by decide) _⟩
    · simp [← hp, List.intercalate_cons_cons, lit, chr]
  have hclock : isFreshTimestamp now (decimalInt stamp) = true :=
    isFreshTimestamp_decimalInt hstamp hfresh (by omega)
  refine ⟨encode (requestAad ticket.encode) m, ?_, ?_⟩
  · simp only [makeRequest, hp, hm, Option.map_some, hnonce]
  · rw [PeerServer.authenticate_eq_some]
    refine ⟨ticket.encode, toHex m.nonce, toHex m.ciphertext, toHex m.tag, m, plain, decimal piece,
      decimalInt stamp, split_encode_requestAad hbar m, hdecode, ?_, decode_hex_request _ _ m, rfl, rfl,
      by rw [hnonce], decrypt_encrypt ssl hgcm hm, hsplit, hclock, parseU64_decimal_of_lt hpiece⟩
    simpa [PeerTicket.expired] using hexpires

/-- The whole exchange: what the seeder would send in the clear is what the downloader reads. -/
theorem openReply_serve (hgcm : GcmCorrect ssl) {files : SharedFiles} {disk : PeerServer.Disk} {file : LocalFile}
    {random replyRandom plain : Bytes} {access : PeerServer.Access} {ticket : Bytes}
    (hfile : files.find access.ticket.group access.ticket.file = some file)
    (hpayload : PeerServer.payload disk file access.operation access.piece = some plain)
    (hkey : access.key.length = 32) (haad : access.aad = requestAad ticket) (hnonce : access.hexNonce = toHex random)
    (hreply : replyRandom.length = NONCE_SIZE) (hrandom : random.length = NONCE_SIZE)
    (hfit : (requestAad ticket).length + 28 ≤ INT_MAX) (hplain : fitsInt plain.length = true) :
    openReply ssl ticket access.key random (PeerServer.serve ssl files disk replyRandom access) = some plain := by
  obtain ⟨m, hm⟩ := @encrypt_isSome ssl hgcm _ _ (replyAad access.aad access.hexNonce) _ hkey hreply (by
    simp only [fitsInt, decide_eq_true_eq, replyAad, haad, hnonce, List.length_append, length_toHex, hrandom,
      NONCE_SIZE, show (lit "|").length = 1 from rfl, show REPLY.length = 2 from rfl]
    omega) hplain
  have hserve : PeerServer.serve ssl files disk replyRandom access = encode REPLY m := by
    simp only [PeerServer.serve, hfile, hpayload, hm]
  rw [hserve, openReply_encode]
  rw [haad, hnonce] at hm
  exact decrypt_encrypt ssl hgcm hm

end PeerProtocol

namespace TrackerState

variable {ssl : OpenSsl} {s : TrackerState} {c : Call}

theorem issueAccesses_isSome {ticket : PeerTicket} {seeders : List (Bytes × Seeder)}
    (h : ∀ e ∈ seeders, ticket.key ssl e.2.peerKey ≠ []) :
    ∃ accesses, issueAccesses ssl ticket seeders = some accesses := by
  induction seeders with
  | nil => exact ⟨[], rfl⟩
  | cons e rest ih =>
    obtain ⟨user, seeder⟩ := e
    obtain ⟨hkey, hrest⟩ := List.forall_mem_cons.mp h
    obtain ⟨accesses, haccesses⟩ := ih hrest
    refine ⟨⟨seeder.endpoint, ticket.encode, ticket.key ssl seeder.peerKey⟩ :: accesses, ?_⟩
    simp only [issueAccesses, List.isEmpty_iff]
    rw [if_neg hkey, haccesses, Option.map_some]

/-- A member asking for a file with seeders gets its metadata and an access for each of them. -/
theorem located_of_member {name hexFile fileName : Bytes} {group : Group} {file : SharedFile}
    (hs : s.Consistent) (hwords : words c.commandLine = [lit "download_file", name, hexFile])
    (hgroup : s.groups.find name = some group) (hmember : group.members.contains (s.userOf c.session) = true)
    (hname : fromHex hexFile = some fileName) (hfile : group.files.find fileName = some file)
    (hkeys : ∀ e ∈ file.seeders.entries,
      PeerTicket.key ssl ⟨s.userOf c.session, name, fileName, c.context.now + 300⟩ e.2.peerKey ≠ []) :
    ∃ accesses, Located ssl s c name hexFile fileName group file accesses := by
  have huser : s.userOf c.session ≠ [] :=
    hs.user_name _ ((hs.group _ _ hgroup).member_registered _ hmember)
  have hseeded : file.seeders.isEmpty = false :=
    (OrderedMap.isEmpty_eq_false_iff _).mpr ((hs.group _ _ hgroup).file _ _ hfile).seeded
  obtain ⟨accesses, hissued⟩ := issueAccesses_isSome hkeys
  have hlookup : (commands ssl).lookup (lit "download_file") =
      some ⟨downloadFile ssl, true, 2, lit "download_file <group> <file>"⟩ := rfl
  refine ⟨accesses, hwords, huser, hgroup, hmember, hname, hfile, hissued, ?_⟩
  simp [step, apply, hwords, hlookup, huser, downloadFile, findGroup, Request.arg, hgroup, hmember, hname, hfile,
    hseeded, PeerTicket.LIFETIME_SECONDS, hissued, Request.reply]

/-- The words of the line an honest client shares a file with. -/
theorem words_shareCommand {self : Endpoint} {peerKey group name : Bytes} {metadata : FileMetadata}
    (hip : self.ip ≠ [] ∧ ∀ b ∈ self.ip, isSpace b = false) (hgroup : group ≠ [] ∧ ∀ b ∈ group, isSpace b = false)
    (hname : name ≠ []) (hvalid : metadata.valid = true) (hkey : peerKey ≠ []) :
    words (TrackerClient.shareCommand self peerKey group name metadata) = [lit "upload_file", group, toHex name,
      decimal metadata.size.toNat, metadata.fullHash, metadata.pieceHashList, self.ip, decimal self.port,
      toHex peerKey] := by
  have hhex : ∀ b : Bytes, b ≠ [] → toHex b ≠ [] ∧ ∀ x ∈ toHex b, isSpace x = false := fun b hb =>
    ⟨by simpa using hb, fun x hx => TrackerClient.isSpace_of_isXDigit (isXDigit_of_mem_toHex hx)⟩
  have hdecimal : ∀ n : Nat, decimal n ≠ [] ∧ ∀ x ∈ decimal n, isSpace x = false := fun n =>
    ⟨decimal_ne_nil n, fun x hx => TrackerClient.isSpace_of_isDigit (isDigit_of_mem_decimal hx)⟩
  have hline : TrackerClient.shareCommand self peerKey group name metadata = [chr ' '].intercalate
      [lit "upload_file", group, toHex name, decimal metadata.size.toNat, metadata.fullHash, metadata.pieceHashList,
        self.ip, decimal self.port, toHex peerKey] := by
    simp [TrackerClient.shareCommand, List.intercalate_cons_cons, lit, chr]
  rw [hline]
  refine Delimited.words_intercalate (by decide) ?_
  simp only [List.mem_cons, List.not_mem_nil, or_false, forall_eq_or_imp, forall_eq]
  refine ⟨by decide +kernel, hgroup, hhex _ hname, hdecimal _, ⟨FileMetadata.valid_fullHash_ne_nil hvalid, ?_⟩,
    ⟨FileMetadata.pieceHashList_ne_nil hvalid, ?_⟩, hip, hdecimal _, hhex _ hkey⟩
  · exact fun b hb => TrackerClient.isSpace_of_isXDigit (isXDigit_of_isHex (FileMetadata.valid_fullHash hvalid) hb)
  · exact fun b hb => TrackerClient.isSpace_of_pieceHashList hvalid hb

/-- An accepted share of an honest client registers its own endpoint and key for that file. -/
theorem share_registers {self : Endpoint} {peerKey g f : Bytes} {metadata : FileMetadata} (hs : s.Consistent)
    (hself : self.WellFormed) (hip : ∀ b ∈ self.ip, isSpace b = false) (hg : g ≠ [] ∧ ∀ b ∈ g, isSpace b = false)
    (hf : f ≠ []) (hvalid : metadata.valid = true) (hkey : peerKey.length = 32)
    (hline : c.commandLine = TrackerClient.shareCommand self peerKey g f metadata)
    (hok : (step ssl s c).2.response = lit "OK file shared") :
    ∃ group file, (step ssl s c).1.groups.find g = some group ∧ group.files.find f = some file ∧
      file.seeders.find (s.userOf c.session) = some ⟨self, peerKey⟩ ∧ file.metadata = metadata := by
  have hwords := words_shareCommand ⟨hself.ip_ne_nil, hip⟩ hg hf hvalid (show peerKey ≠ [] by rintro rfl; simp at hkey)
  rw [← hline] at hwords
  have heffect := @apply_effect ssl s c
  generalize hs' : (step ssl s c).1 = s', hr : (step ssl s c).2 = result at heffect
  have hresponse : result.response = lit "OK file shared" := by rw [← hr]; exact hok
  cases heffect with
  | uploadFile name args group upload file hw huser hgroup hmember hupload hfile =>
    obtain ⟨rfl, rfl⟩ : name = g ∧ args = _ := by simpa using hw.symm.trans hwords
    have hparse : Endpoint.parse (self.ip ++ lit ":" ++ decimal self.port) = some self := Endpoint.parse_toString hself
    have hmetadata : (⟨metadata.size, metadata.fullHash, FileMetadata.parsePieceHashList metadata.pieceHashList⟩ :
        FileMetadata) = metadata := by rw [FileMetadata.parsePieceHashList_pieceHashList hvalid]
    simp only [parseUpload, fromHex_toHex, parseU64_decimal, hparse, hmetadata, hvalid, hkey] at hupload
    obtain rfl : upload = ⟨f, metadata, ⟨self, peerKey⟩⟩ := by simpa [hf] using hupload.symm
    obtain ⟨hmeta, hseeders, -⟩ := shareFile_eq_some hfile
      (fun old ho => ((hs.group _ _ hgroup).file _ old ho).valid)
    refine ⟨{ group with files := group.files.insert f file }, file, ?_, ?_, ?_, hmeta⟩
    · simp [setGroup]
    · simp
    · simp [hseeders]
  | refused text herr =>
    have htext : text = lit "OK file shared" := hresponse
    exact absurd (htext ▸ herr) (by decide)
  | listed text hw =>
    obtain ⟨args, hw | hw | hw⟩ := hw <;> exact absurd (List.cons.inj (hw.symm.trans hwords)).1 (by decide)
  | downloadFile name hexFile fileName group file accesses hw =>
    exact absurd (List.cons.inj (hw.symm.trans hwords)).1 (by decide)
  | _ => exact absurd hresponse (by dsimp only; decide)

theorem Effect.registered {s' : TrackerState} {result : CommandResult} {user : Bytes} (e : Effect ssl s c s' result)
    (h : s'.Registered user) : s.Registered user ∨ user ∈ words c.commandLine := by
  cases e with
  | createUser name secret hwords =>
    simp only [Registered, OrderedMap.contains_insert, Bool.or_eq_true, decide_eq_true_eq] at h
    rcases h with rfl | h
    · exact Or.inr (by simp [hwords])
    · exact Or.inl h
  | _ => exact Or.inl h

/-- User names arrive in frames. -/
theorem user_length_le {calls : List Call} (hframes : ∀ call ∈ calls, call.commandLine.length ≤ MAX_FRAME)
    {user : Bytes} (h : (Machine.run (step ssl) empty calls).Registered user) : user.length ≤ MAX_FRAME := by
  induction calls using List.reverseRecOn with
  | nil => simp [Registered, empty] at h
  | append_singleton calls call ih =>
    rw [Machine.run_concat] at h
    rcases (apply_effect _ call).registered h with h | h
    · exact ih (fun call' hc => hframes call' (List.mem_append_left _ hc)) h
    · exact (Delimited.length_le_of_mem_words h).trans (hframes call (by simp))

end TrackerState

/-- A downloader's request with an access, the seeder's reply frame and what the downloader reads in it. -/
def ask (ssl : OpenSsl) (access : SeederAccess) (peerKey : Bytes) (files : SharedFiles) (disk : PeerServer.Disk)
    (now stamp : Int) (random replyRandom operation : Bytes) (piece : Nat) : Option (Bytes × Option Bytes) :=
  (makeRequest ssl stamp random access.ticket access.key operation piece).map (fun request =>
    let reply := PeerServer.respond ssl peerKey files disk now replyRandom request.1
    (reply, openReply ssl access.ticket access.key request.2 reply))

theorem PeerServer.payload_get {disk : Disk} {file : LocalFile} {i : Nat} (hi : i < u64Bound) :
    payload disk file (lit "GET") (UInt64.ofNat i) = if file.available[i]? = some true then
      (disk.contents (cStr file.path)).bind (fun contents =>
        PieceFile.read contents disk.io i (file.metadata.pieceLength i)) else none := by
  have hn : (UInt64.ofNat i).toNat = i := by
    simp only [UInt64.toNat_ofNat', u64Bound] at *
    omega
  have hflag : (decide (i < file.available.length) && file.available.getD i false) = true ↔
      file.available[i]? = some true := by
    rw [List.getD_eq_getElem?_getD]
    by_cases hlt : i < file.available.length
    · simp [hlt]
    · simp [hlt]
  have hop : lit "GET" ≠ lit "BITMAP" := by decide
  simp only [payload, hop, if_false, decide_true, Bool.true_and, hn]
  by_cases h : file.available[i]? = some true
  · rw [if_pos h, if_pos (hflag.mpr h)]
    cases disk.contents (cStr file.path) <;> rfl
  · rw [if_neg h, if_neg (fun hc => h (hflag.mp hc))]

/-- An endpoint without NUL bytes is a plain dotted quad. -/
theorem Endpoint.WellFormed.plain {e : Endpoint} (h : e.WellFormed) (hnul : 0 ∉ e.ip) {b : UInt8} (hb : b ∈ e.ip) :
    isDigit b = true ∨ b = chr '.' := by
  have haddress := h.address
  rw [cStr_of_not_mem hnul] at haddress
  exact of_mem_inetPton haddress hb

section Service

variable {ssl : OpenSsl} {ticket : PeerTicket} {peerKey : Bytes} {files : SharedFiles} {file : LocalFile}
  {disk : PeerServer.Disk} {now stamp : Int} {random replyRandom operation plain : Bytes} {piece : Nat} {e : Endpoint}

/-- What a downloader can count on when it asks a seeder that shares the file. -/
structure Servable (ssl : OpenSsl) (ticket : PeerTicket) (peerKey : Bytes) (files : SharedFiles) (file : LocalFile)
    (now stamp : Int) (random replyRandom : Bytes) : Prop where
  hgcm : GcmCorrect ssl
  hdecode : PeerTicket.decode ticket.encode = some ticket
  hkey : (ticket.key ssl peerKey).length = 32
  hfits : (requestAad ticket.encode).length + 28 ≤ INT_MAX
  hfile : files.find ticket.group ticket.file = some file
  hexpires : now < ticket.expires
  hstamp : 0 ≤ stamp
  hfresh : |stamp - now| ≤ 300
  hrandom : random.length = NONCE_SIZE
  hreply : replyRandom.length = NONCE_SIZE

theorem Servable.respond_eq (h : Servable ssl ticket peerKey files file now stamp random replyRandom)
    (hoperation : chr '\n' ∉ operation) (hshort : operation.length ≤ MAX_FRAME) (hpiece : piece < u64Bound) :
    ∃ frame, makeRequest ssl stamp random ticket.encode (ticket.key ssl peerKey) operation piece =
        some (frame, random) ∧
      PeerServer.respond ssl peerKey files disk now replyRandom frame =
        PeerServer.serve ssl files disk replyRandom ⟨ticket, ticket.key ssl peerKey, requestAad ticket.encode,
          toHex random, operation, UInt64.ofNat piece⟩ := by
  have haad : fitsInt (requestAad ticket.encode).length = true := by
    have := h.hfits
    rw [fitsInt, decide_eq_true_eq]
    omega
  obtain ⟨frame, hframe, hauth⟩ := authenticate_makeRequest h.hgcm h.hdecode h.hkey h.hexpires h.hstamp h.hfresh
    hoperation hpiece h.hrandom haad hshort
  exact ⟨frame, hframe, by simp only [PeerServer.respond, hauth]⟩

/-- A payload comes through unchanged. -/
theorem Servable.ask_payload (h : Servable ssl ticket peerKey files file now stamp random replyRandom)
    (hoperation : chr '\n' ∉ operation) (hshort : operation.length ≤ MAX_FRAME) (hpiece : piece < u64Bound)
    (hpayload : PeerServer.payload disk file operation (UInt64.ofNat piece) = some plain)
    (hplain : fitsInt plain.length = true) :
    (ask ssl ⟨e, ticket.encode, ticket.key ssl peerKey⟩ peerKey files disk now stamp random replyRandom operation
      piece).map Prod.snd = some (some plain) := by
  obtain ⟨frame, hframe, hrespond⟩ := @Servable.respond_eq _ _ _ _ _ disk _ _ _ _ _ _ h hoperation hshort hpiece
  simp only [ask, hframe, Option.map_some, hrespond]
  have hopen := @openReply_serve ssl h.hgcm files disk file random replyRandom plain
    ⟨ticket, ticket.key ssl peerKey, requestAad ticket.encode, toHex random, operation, UInt64.ofNat piece⟩
    ticket.encode h.hfile hpayload h.hkey rfl rfl h.hreply h.hrandom h.hfits hplain
  rw [hopen]

theorem Servable.ask_unavailable (h : Servable ssl ticket peerKey files file now stamp random replyRandom)
    (hoperation : chr '\n' ∉ operation) (hshort : operation.length ≤ MAX_FRAME) (hpiece : piece < u64Bound)
    (hpayload : PeerServer.payload disk file operation (UInt64.ofNat piece) = none) :
    (ask ssl ⟨e, ticket.encode, ticket.key ssl peerKey⟩ peerKey files disk now stamp random replyRandom operation
      piece).map Prod.fst = some UNAVAILABLE := by
  obtain ⟨frame, hframe, hrespond⟩ := @Servable.respond_eq _ _ _ _ _ disk _ _ _ _ _ _ h hoperation hshort hpiece
  simp only [ask, hframe, Option.map_some, hrespond, PeerServer.serve, h.hfile, hpayload]

/-- All three operations of the protocol, for one piece number. -/
theorem Servable.served (h : Servable ssl ticket peerKey files file now stamp random replyRandom)
    (hcount : file.available.length ≤ MAX_FRAME) (disk : PeerServer.Disk) :
    (ask ssl ⟨e, ticket.encode, ticket.key ssl peerKey⟩ peerKey files disk now stamp random replyRandom
      (lit "BITMAP") 0).map Prod.snd = some (some (file.available.map (fun available => if available then 1 else 0))) ∧
    ∀ i < u64Bound,
      (∀ contents, file.available[i]? = some true → disk.contents (cStr file.path) = some contents →
        (PieceFile.read contents disk.io i (file.metadata.pieceLength i)).isSome = true →
        (ask ssl ⟨e, ticket.encode, ticket.key ssl peerKey⟩ peerKey files disk now stamp random replyRandom
          (lit "GET") i).map Prod.snd =
          some (some (pread contents (PieceFile.pieceOffset i) (file.metadata.pieceLength i)))) ∧
      ((file.available[i]? ≠ some true ∨ ∀ contents, disk.contents (cStr file.path) = some contents →
        PieceFile.read contents disk.io i (file.metadata.pieceLength i) = none) →
        (ask ssl ⟨e, ticket.encode, ticket.key ssl peerKey⟩ peerKey files disk now stamp random replyRandom
          (lit "GET") i).map Prod.fst = some UNAVAILABLE) := by
  have hget : chr '\n' ∉ lit "GET" ∧ (lit "GET").length ≤ MAX_FRAME := by decide
  have hbitmap : chr '\n' ∉ lit "BITMAP" ∧ (lit "BITMAP").length ≤ MAX_FRAME := by decide
  refine ⟨h.ask_payload hbitmap.1 hbitmap.2 (by decide) (by simp [PeerServer.payload]) ?_, fun i hi => ⟨?_, ?_⟩⟩
  · rw [List.length_map, fitsInt, decide_eq_true_eq]
    simp only [MAX_FRAME, INT_MAX] at *
    omega
  · intro contents hflag hcontents hread
    obtain ⟨data, hdata⟩ := Option.isSome_iff_exists.mp hread
    obtain ⟨hlen, hslice⟩ := PieceFile.read_eq_some hdata
    rw [← hslice]
    refine h.ask_payload hget.1 hget.2 hi ?_ ?_
    · rw [PeerServer.payload_get hi, if_pos hflag, hcontents, Option.bind_some, hdata]
    · have hpiece := file.metadata.pieceLength_le i
      rw [hlen, fitsInt, decide_eq_true_eq]
      simp only [PIECE_SIZE, INT_MAX] at *
      omega
  · intro hnot
    refine h.ask_unavailable hget.1 hget.2 hi ?_
    rw [PeerServer.payload_get hi]
    split
    · next hflag =>
      cases hc : disk.contents (cStr file.path) with
      | none => rfl
      | some contents => exact (hnot.resolve_left (not_not.mpr hflag)) contents hc
    · rfl

end Service

/-- The length of a request's authenticated data, from the lengths of the names in the ticket. -/
theorem length_requestAad_le {ticket : PeerTicket} (h₀ : 0 ≤ ticket.expires) (h₁ : ticket.expires ≤ 2 ^ 62) :
    (requestAad ticket.encode).length ≤
      2 * ticket.user.length + 2 * ticket.group.length + 2 * ticket.file.length + 26 := by
  have hdecimal : (decimalInt ticket.expires).length ≤ 20 := by
    rw [decimalInt, if_neg (by omega)]
    exact length_decimal_le (by decide) (by omega)
  simp only [requestAad, PeerTicket.encode, List.length_append, length_toHex, show (lit ".").length = 1 from rfl,
    show (lit "|").length = 1 from rfl, show REQUEST.length = 2 from rfl]
  omega

/-- The flags of a file whose share fits a frame fit a frame. -/
theorem pieceCount_le_of_share {self : Endpoint} {peerKey g f : Bytes} {metadata : FileMetadata}
    (h : (TrackerClient.shareCommand self peerKey g f metadata).length ≤ MAX_FRAME) :
    metadata.pieceCount ≤ MAX_FRAME := by
  have hlist : metadata.pieceCount ≤ metadata.pieceHashList.length + 1 := by
    unfold FileMetadata.pieceHashList FileMetadata.pieceCount
    split
    · next he => simp [List.isEmpty_iff.mp he]
    · rw [join_eq]
      exact Delimited.length_le_intercalate _ _
  simp only [TrackerClient.shareCommand, List.length_append, show (lit " ").length = 1 from rfl] at h
  omega

namespace TrackerState

/-- The words of the line a client looks a file up with. -/
theorem words_locateCommand {g f : Bytes} (hg : g ≠ [] ∧ ∀ b ∈ g, isSpace b = false) (hf : f ≠ []) :
    words (TrackerClient.locateCommand g f) = [lit "download_file", g, toHex f] := by
  have hline : TrackerClient.locateCommand g f = [chr ' '].intercalate [lit "download_file", g, toHex f] := by
    simp [TrackerClient.locateCommand, List.intercalate_cons_cons, lit, chr]
  rw [hline]
  refine Delimited.words_intercalate (by decide) ?_
  simp only [List.mem_cons, List.not_mem_nil, or_false, forall_eq_or_imp, forall_eq]
  exact ⟨by decide +kernel, hg, by simpa using hf,
    fun x hx => TrackerClient.isSpace_of_isXDigit (isXDigit_of_mem_toHex hx)⟩

/-- An honest client's share registers it, and from then on every member finds it in the reply, whatever
else the list holds, and is served with exactly what it has. -/
theorem honest_seeder_serves (ssl : OpenSsl) (calls : List Call) (c : Call) (g f user peerKey : Bytes) (group : Group)
    (file : SharedFile) (e : Endpoint) (files : SharedFiles) (localFile : LocalFile) (session : UInt64)
    (hgcm : GcmCorrect ssl) (hframes : ∀ call ∈ calls, call.commandLine.length ≤ MAX_FRAME)
    (hgroup : (Machine.run (step ssl) empty calls).groups.find g = some group)
    (hfile : group.files.find f = some file) (hseeder : file.seeders.find user = some ⟨e, peerKey⟩)
    (hnul : 0 ∉ e.ip) (hword : g ≠ [] ∧ ∀ b ∈ g, isSpace b = false)
    (hlocal : files.find g f = some localFile) (hvalid : localFile.metadata.valid = true)
    (hflags : localFile.available.length = localFile.metadata.pieceCount)
    (hshare : (TrackerClient.shareCommand e peerKey g f localFile.metadata).length ≤ MAX_FRAME)
    (hline : c.commandLine = TrackerClient.locateCommand g f) (hframe : c.commandLine.length ≤ MAX_FRAME)
    (hmember : group.members.contains ((Machine.run (step ssl) empty calls).userOf c.session) = true)
    (h₀ : 0 ≤ c.context.now) (h₁ : c.context.now ≤ 2 ^ 62 - 300)
    (hhmac : ∀ v seeder, file.seeders.find v = some seeder → (ssl.HMAC seeder.peerKey (lit "torrent-peer-ticket-v1|" ++
      PeerTicket.encode ⟨(Machine.run (step ssl) empty calls).userOf c.session, g, f, c.context.now + 300⟩)).isSome =
        true) :
    (∀ (t : TrackerState) (call : Call), Reachable ssl t →
      call.commandLine = TrackerClient.shareCommand e peerKey g f localFile.metadata →
      (step ssl t call).2.response = lit "OK file shared" →
      ∃ group file, (step ssl t call).1.groups.find g = some group ∧ group.files.find f = some file ∧
        file.seeders.find (t.userOf call.session) = some ⟨e, peerKey⟩ ∧ file.metadata = localFile.metadata) ∧
    ∃ seeders, TrackerClient.locate session (some (rawReply ssl (Machine.run (step ssl) empty calls) c)) =
        .ok (file.metadata, seeders) ∧
      ∃ access ∈ seeders, access.endpoint = e ∧
        ∀ (disk : PeerServer.Disk) (now stamp : Int) (random replyRandom : Bytes), now < c.context.now + 300 →
          0 ≤ stamp → |stamp - now| ≤ 300 → random.length = NONCE_SIZE → replyRandom.length = NONCE_SIZE →
          (ask ssl access peerKey files disk now stamp random replyRandom (lit "BITMAP") 0).map Prod.snd =
            some (some (localFile.available.map (fun available => if available then 1 else 0))) ∧
          ∀ i < u64Bound,
            (∀ contents, localFile.available[i]? = some true → disk.contents (cStr localFile.path) = some contents →
              (PieceFile.read contents disk.io i (localFile.metadata.pieceLength i)).isSome = true →
              (ask ssl access peerKey files disk now stamp random replyRandom (lit "GET") i).map Prod.snd =
                some (some (pread contents (PieceFile.pieceOffset i) (localFile.metadata.pieceLength i)))) ∧
            ((localFile.available[i]? ≠ some true ∨ ∀ contents, disk.contents (cStr localFile.path) = some contents →
              PieceFile.read contents disk.io i (localFile.metadata.pieceLength i) = none) →
              (ask ssl access peerKey files disk now stamp random replyRandom (lit "GET") i).map Prod.fst =
                some UNAVAILABLE) := by
  have hs : (Machine.run (step ssl) empty calls).Consistent := Reachable.consistent ⟨calls, rfl⟩
  generalize hrun : Machine.run (step ssl) empty calls = s at *
  have hfileOk := (hs.group _ _ hgroup).file _ _ hfile
  have hseederOk := hfileOk.seeder user _ hseeder
  have hwf : e.WellFormed := by
    obtain ⟨text, htext⟩ := hseederOk.endpoint
    exact (Endpoint.parse_eq_some htext).1
  refine ⟨fun t call ht hcall hok => share_registers ht.consistent hwf hseederOk.ip_blank hword hfileOk.name hvalid
    hseederOk.key hcall hok, ?_⟩
  generalize hticket : (⟨s.userOf c.session, g, f, c.context.now + 300⟩ : PeerTicket) = ticket at hhmac
  -- every seeder has a 32-byte key, so the tracker can issue a ticket for each of them
  have hkey : ∀ v seeder, file.seeders.find v = some seeder → (ticket.key ssl seeder.peerKey).length = 32 := by
    intro v seeder hv
    obtain ⟨digest, hdigest⟩ := Option.isSome_iff_exists.mp (hhmac v seeder hv)
    have hfit : fitsInt seeder.peerKey.length = true := by rw [(hfileOk.seeder v seeder hv).key]; rfl
    simp only [PeerTicket.key, hmacSha256, hfit, if_true, hdigest, Option.getD_some]
    exact ssl.HMAC_length _ _ _ hdigest
  obtain ⟨accesses, hl⟩ := located_of_member hs (by rw [hline]; exact words_locateCommand hword hfileOk.name) hgroup
    hmember (fromHex_toHex f) hfile (fun entry hentry => by
      have hlen := hkey entry.1 entry.2 ((OrderedMap.mem_entries_iff _ _ _).mp hentry)
      rw [← hticket] at hlen
      exact List.ne_nil_of_length_pos (by rw [hlen]; decide))
  have hdecode : PeerTicket.decode ticket.encode = some ticket := hticket ▸ hl.decode_ticket hs h₀ h₁
  have hmem : accessFor ssl ticket ⟨e, peerKey⟩ ∈ accesses := by
    rw [hl.accesses_eq, hticket]
    exact List.mem_map.mpr ⟨(user, ⟨e, peerKey⟩), (OrderedMap.mem_entries_iff _ _ _).mpr hseeder, rfl⟩
  -- the entry of an address made of digits and dots is read back, however the others come apart
  have hread : accessFor ssl ticket ⟨e, peerKey⟩ ∈
      ((accesses.map SeederAccess.encode).insertionSort (· ≤ ·)).flatMap readEntry := by
    have hplain : ∀ b, isDigit b = false → b ≠ chr '.' → b ∉ e.ip := by
      intro b hdigit hdot hb
      rcases hwf.plain hnul hb with h | h
      · simp [hdigit] at h
      · exact hdot h
    have hentry := (hticket ▸ hl.issuable hs _ hmem).readEntry hdecode (hplain _ (by decide) (by decide))
      (hplain _ (by decide) (by decide))
    refine List.mem_flatMap.mpr ⟨_, (List.perm_insertionSort _ _).mem_iff.mpr (List.mem_map_of_mem hmem), ?_⟩
    rw [hentry]
    exact List.mem_cons_self
  refine ⟨_, ?_, _, hread, rfl, ?_⟩
  · rw [hl.locate_eq hs]
    dsimp only
    rw [if_neg (by simpa using List.ne_nil_of_mem hread)]
  · intro disk now stamp random replyRandom hnow hstamp hfresh hrandom hreply
    have huser : (s.userOf c.session).length ≤ MAX_FRAME :=
      @user_length_le ssl calls hframes _ (hrun ▸ (hs.group _ _ hgroup).member_registered _ hmember)
    have haad := @length_requestAad_le ticket (by rw [← hticket]; change 0 ≤ c.context.now + 300; omega)
      (by rw [← hticket]; change c.context.now + 300 ≤ 2 ^ 62; omega)
    have hnames : g.length + 2 * f.length ≤ MAX_FRAME := by
      rw [hline] at hframe
      simp only [TrackerClient.locateCommand, List.length_append, length_toHex] at hframe
      omega
    have hservable : Servable ssl ticket peerKey files localFile now stamp random replyRandom := by
      subst hticket
      refine ⟨hgcm, hdecode, hkey user _ hseeder, ?_, hlocal, hnow, hstamp, hfresh, hrandom, hreply⟩
      simp only [MAX_FRAME, INT_MAX] at *
      omega
    exact hservable.served (by rw [hflags]; exact pieceCount_le_of_share hshare) disk

section Example

def aliceEndpoint : Endpoint := ⟨lit "10.0.0.1", 6881⟩

/-- Alice shares the five bytes of `hello` with Bob's group. -/
def helloRun : List Call := aliceAndBob.take 7 ++ [
  ⟨7, TrackerClient.shareCommand aliceEndpoint peerKeyOfAlice (lit "g") (lit "f") PeerServer.exampleFile.metadata,
    ⟨[], 0, 1000⟩⟩]

def helloRecording : Recording := { recording with sealed := PeerServer.exchange.sealed }

def helloLocates : Call := ⟨9, TrackerClient.locateCommand (lit "g") (lit "f"), ⟨[], 0, 1000⟩⟩

theorem honest_seeder_serves_hello : ∃ access : SeederAccess, access.endpoint = aliceEndpoint ∧
    (ask helloRecording.replay access peerKeyOfAlice
      (SharedFiles.empty.add (lit "g") (lit "f") PeerServer.exampleFile) ⟨fun _ => some (lit "hello"), []⟩ 1100 1100
      PeerServer.exampleNonce PeerServer.exampleReplyNonce (lit "GET") 0).map Prod.snd = some (some (lit "hello")) := by
  have hrun : ((Machine.run (step helloRecording.replay) empty helloRun).groups.find (lit "g")).any (fun group =>
        group.members.contains (lit "bob") && (group.files.find (lit "f")).any (fun file =>
          file.seeders.find (lit "alice") = some ⟨aliceEndpoint, peerKeyOfAlice⟩ &&
            file.seeders.entries.all (fun entry => entry.2.peerKey = peerKeyOfAlice))) = true ∧
      (Machine.run (step helloRecording.replay) empty helloRun).userOf helloLocates.session = lit "bob" := by
    decide +kernel
  obtain ⟨hstate, huser⟩ := hrun
  obtain ⟨group, hgroup, hgroup'⟩ := (Option.any_eq_true _ _).mp hstate
  rw [Bool.and_eq_true] at hgroup'
  obtain ⟨file, hfile, hfile'⟩ := (Option.any_eq_true _ _).mp hgroup'.2
  rw [Bool.and_eq_true, decide_eq_true_eq, List.all_eq_true] at hfile'
  obtain ⟨-, seeders, -, access, -, hendpoint, hserve⟩ := honest_seeder_serves helloRecording.replay helloRun
    helloLocates (lit "g") (lit "f") (lit "alice") peerKeyOfAlice group file aliceEndpoint
    (SharedFiles.empty.add (lit "g") (lit "f") PeerServer.exampleFile) PeerServer.exampleFile 0
    (Recording.gcmCorrect (by decide +kernel)) (by decide +kernel) hgroup hfile hfile'.1 (by decide +kernel)
    (by decide +kernel) (by simp) (by decide +kernel) (by decide +kernel) (by decide +kernel) rfl (by decide +kernel)
    (by rw [huser]; exact hgroup'.1) (by decide) (by decide) (by
      intro v seeder hv
      have hkey := hfile'.2 _ ((OrderedMap.mem_entries_iff _ _ _).mpr hv)
      rw [decide_eq_true_eq] at hkey
      rw [huser, hkey]
      decide +kernel)
  refine ⟨access, hendpoint, ?_⟩
  have hget := ((hserve ⟨fun _ => some (lit "hello"), []⟩ 1100 1100 PeerServer.exampleNonce PeerServer.exampleReplyNonce
    (by decide) (by decide) (by decide) (by decide +kernel) (by decide +kernel)).2 0 (by decide)).1 (lit "hello")
    (by decide +kernel) rfl (by decide +kernel)
  rw [hget]
  decide +kernel

end Example

end TrackerState

end TorrentAtlas
