import TorrentAtlas.AtMostOnce
import TorrentAtlas.PeerServer

/-!
# Which reply answers which request

All traffic between peers comes from calls of `makeRequest` and of `respond`, and
every call encrypts at most once. The authenticated data of a reply holds the ticket
text and the nonce text of its request; the two texts have no bar of their own at the
places that matter, so no two requests share a reply, and the leading field keeps
requests and replies apart.
-/
namespace TorrentAtlas

open Encoding Crypto PeerProtocol

namespace PeerServer

/-- The plaintext of the reply to a request, with what the request has established. -/
def reply (ssl : OpenSsl) (peerKey : Bytes) (files : SharedFiles) (disk : Disk) (now : Int) (request : Bytes) :
    Option (Access × Bytes) :=
  match authenticate ssl peerKey now request with
  | none => none
  | some access =>
    match files.find access.ticket.group access.ticket.file with
    | none => none
    | some file => (payload disk file access.operation access.piece).map (fun plain => (access, plain))

end PeerServer

namespace PeerProtocol

open PeerServer (Access authenticate respond reply)

/-- One call of `makeRequest`, or of `respond` on whatever frame. -/
inductive Exchange
  | asked (now : Int) (random ticket key operation : Bytes) (piece : Nat)
  | answered (peerKey : Bytes) (files : SharedFiles) (disk : PeerServer.Disk) (now : Int) (random request : Bytes)

/-- The one encryption of a call, if it comes to that. -/
def Exchange.sealing (ssl : OpenSsl) : Exchange → Option Sealing
  | .asked now random ticket key operation piece =>
    some ⟨random, key, requestAad ticket, operation ++ lit "\n" ++ decimal piece ++ lit "\n" ++ decimalInt now⟩
  | .answered peerKey files disk now random request =>
    (reply ssl peerKey files disk now request).map
      (fun r => ⟨random, r.1.key, replyAad r.1.aad r.1.hexNonce, r.2⟩)

/-- Everything that has been encrypted. -/
def encryptions (ssl : OpenSsl) (traffic : List Exchange) : List Sealing := traffic.filterMap (Exchange.sealing ssl)

/-- `respond` answered this request, under this key, with `plain` as the message `m`. -/
def Answered (ssl : OpenSsl) (e : Exchange) (ticket key hexNonce plain : Bytes) (m : AesGcmMessage) : Prop :=
  ∃ peerKey files disk now random request access, e = .answered peerKey files disk now random request ∧
    (split request (chr '|')).getD 1 [] = ticket ∧ (split request (chr '|')).getD 2 [] = hexNonce ∧
    reply ssl peerKey files disk now request = some (access, plain) ∧ access.key = key ∧
    encrypt ssl random key (replyAad (requestAad ticket) hexNonce) plain = some m ∧
    respond ssl peerKey files disk now random request = encode REPLY m

variable {ssl : OpenSsl}

/-- The last bar of a reply's data is the one before the nonce, and the text before it is the ticket. -/
theorem replyAad_injective {ticket ticket' hexNonce hexNonce' : Bytes} (h : chr '|' ∉ hexNonce)
    (h' : chr '|' ∉ hexNonce') (heq : replyAad (requestAad ticket) hexNonce = replyAad (requestAad ticket') hexNonce') :
    ticket = ticket' ∧ hexNonce = hexNonce' := by
  have hcut : ∀ t n : Bytes, replyAad (requestAad t) n = lit "30|21|" ++ (t ++ chr '|' :: n) := by
    intro t n
    simp [replyAad, requestAad, REPLY, REQUEST, lit, chr]
  rw [hcut, hcut] at heq
  have hs := congrArg (List.splitOn (chr '|')) (List.append_cancel_left heq)
  rw [List.splitOn_append_cons_self, List.splitOn_append_cons_self, List.splitOn_eq_singleton h,
    List.splitOn_eq_singleton h'] at hs
  obtain ⟨hticket, hnonce⟩ := List.append_inj' hs rfl
  exact ⟨Delimited.splitOn_injective hticket, List.singleton_injective hnonce⟩

theorem replyAad_ne_requestAad (aad hexNonce ticket : Bytes) : replyAad aad hexNonce ≠ requestAad ticket := by
  intro heq
  have := congrArg (fun b : Bytes => b.head?) heq
  simp [replyAad, requestAad, REPLY, REQUEST, lit] at this

/-- The texts an accepted request carries. -/
theorem texts_of_authenticate {peerKey request : Bytes} {now : Int} {access : Access}
    (h : authenticate ssl peerKey now request = some access) :
    access.aad = requestAad ((split request (chr '|')).getD 1 []) ∧
      access.hexNonce = (split request (chr '|')).getD 2 [] ∧ chr '|' ∉ access.hexNonce := by
  obtain ⟨text, nonce, ciphertext, tag, -, -, -, -, hfields, -, -, -, -, haad, hnonce, -⟩ :=
    PeerServer.authenticate_eq_some.mp h
  have hmem : nonce ∈ request.splitOn (chr '|') := by
    rw [← split_eq, hfields]
    simp
  rw [hfields]
  exact ⟨haad, hnonce, hnonce ▸ Delimited.not_mem_of_mem_splitOn hmem⟩

theorem reply_eq_some {peerKey request plain : Bytes} {files : SharedFiles} {disk : PeerServer.Disk} {now : Int}
    {access : Access}
    (h : reply ssl peerKey files disk now request = some (access, plain)) :
    authenticate ssl peerKey now request = some access ∧ ∃ file,
      files.find access.ticket.group access.ticket.file = some file ∧
      PeerServer.payload disk file access.operation access.piece = some plain := by
  unfold reply at h
  split at h
  · simp at h
  · next access' hauth =>
    split at h
    · simp at h
    · next file hfile =>
      obtain ⟨plain', hplain, hpair⟩ := Option.map_eq_some_iff.mp h
      obtain ⟨rfl, rfl⟩ := Prod.mk.inj hpair
      exact ⟨hauth, file, hfile, hplain⟩

theorem respond_of_reply {peerKey random request plain : Bytes} {files : SharedFiles} {disk : PeerServer.Disk}
    {now : Int} {access : Access} {m : AesGcmMessage}
    (h : reply ssl peerKey files disk now request = some (access, plain))
    (hm : encrypt ssl random access.key (replyAad access.aad access.hexNonce) plain = some m) :
    respond ssl peerKey files disk now random request = encode REPLY m := by
  obtain ⟨hauth, file, hfile, hplain⟩ := reply_eq_some h
  simp only [respond, hauth, PeerServer.serve, hfile, hplain, hm]

/-- What `makeRequest` returned is its encryption, behind the request's data. -/
theorem makeRequest_eq_some {now : Int} {random ticket key operation frame nonce : Bytes} {piece : Nat}
    (h : makeRequest ssl now random ticket key operation piece = some (frame, nonce)) : ∃ s m,
      (Exchange.asked now random ticket key operation piece).sealing ssl = some s ∧ s.message ssl = some m ∧
      s.aad = requestAad ticket ∧ frame = encode (requestAad ticket) m := by
  obtain ⟨m, hm, hpair⟩ := Option.map_eq_some_iff.mp h
  exact ⟨_, m, rfl, hm, rfl, (Prod.mk.inj hpair).1.symm⟩

/-- An encryption under a reply's data was made by `respond` for a request with those texts. -/
theorem answered_of_sealing {e : Exchange} {s : Sealing} (hs : e.sealing ssl = some s) {ticket hexNonce : Bytes}
    (hnonce : chr '|' ∉ hexNonce) (haad : s.aad = replyAad (requestAad ticket) hexNonce) {m : AesGcmMessage}
    (hm : s.message ssl = some m) : Answered ssl e ticket s.key hexNonce s.plain m := by
  cases e with
  | asked now random ticket' key operation piece =>
    obtain rfl := Option.some.inj hs
    exact absurd haad.symm (replyAad_ne_requestAad _ _ _)
  | answered peerKey files disk now random request =>
    obtain ⟨⟨access, plain⟩, hreply, rfl⟩ := Option.map_eq_some_iff.mp hs
    obtain ⟨htext, hhex, hbar⟩ := texts_of_authenticate (reply_eq_some hreply).1
    dsimp only at haad
    rw [htext] at haad
    obtain ⟨hticket, hsame⟩ := replyAad_injective hbar hnonce haad
    refine ⟨peerKey, files, disk, now, random, request, access, rfl, hticket, hhex.symm.trans hsame, hreply, rfl, ?_,
      respond_of_reply hreply hm⟩
    rw [← haad, ← htext]
    exact hm

/-- The encryption behind an answer. -/
theorem Answered.sealing {e : Exchange} {ticket key hexNonce plain : Bytes} {m : AesGcmMessage}
    (h : Answered ssl e ticket key hexNonce plain m) : chr '|' ∉ hexNonce ∧ ∃ random,
      e.sealing ssl = some ⟨random, key, replyAad (requestAad ticket) hexNonce, plain⟩ ∧
      (⟨random, key, replyAad (requestAad ticket) hexNonce, plain⟩ : Sealing).message ssl = some m := by
  obtain ⟨peerKey, files, disk, now, random, request, access, rfl, hticket, hnonce, hreply, hkey, hm, -⟩ := h
  obtain ⟨htext, hhex, hbar⟩ := texts_of_authenticate (reply_eq_some hreply).1
  rw [hnonce] at hhex
  rw [hticket] at htext
  refine ⟨hhex ▸ hbar, random, ?_, hm⟩
  simp only [Exchange.sealing, hreply, Option.map_some, hkey, htext, hhex]

section Ideal

variable {traffic : List Exchange} {ticket key nonce frame plain : Bytes}

theorem mem_encryptions {s : Sealing} : s ∈ encryptions ssl traffic ↔ ∃ e ∈ traffic, e.sealing ssl = some s :=
  List.mem_filterMap

/-- A reply that opens was made by `respond` for this ticket and nonce. -/
theorem answered_of_openReply
    (hideal : ∀ m, decode (split frame (chr '|')) 1 = some m → IdealGcm ssl (encryptions ssl traffic) m)
    (h : openReply ssl ticket key nonce frame = some plain) : ∃ e ∈ traffic, ∃ m,
      decode (split frame (chr '|')) 1 = some m ∧ Answered ssl e ticket key (toHex nonce) plain m := by
  unfold openReply at h
  dsimp only at h
  split at h
  · split at h
    · simp at h
    · next m hm =>
      obtain ⟨s, hs, rfl, haad, rfl, hmessage⟩ := hideal m hm _ _ _ h
      obtain ⟨e, he, hsealing⟩ := mem_encryptions.mp hs
      exact ⟨e, he, m, hm, answered_of_sealing hsealing (not_mem_toHex (by decide) nonce) haad hmessage⟩
  · simp at h

/-- A request that is accepted was made by `makeRequest`: no reply's message has a request's data. -/
theorem authenticate_reply (hcommit : Committing ssl (encryptions ssl traffic)) {e : Exchange} (he : e ∈ traffic)
    {hexNonce : Bytes} {m : AesGcmMessage} (hanswered : Answered ssl e ticket key hexNonce plain m)
    (hm : decode (split frame (chr '|')) 2 = some m) (hideal : IdealGcm ssl (encryptions ssl traffic) m)
    (peerKey : Bytes) (now : Int) : authenticate ssl peerKey now frame = none := by
  by_contra hne
  obtain ⟨access, hauth⟩ := Option.ne_none_iff_exists'.mp hne
  obtain ⟨text, nonce', ciphertext, tag, message, plain', -, -, hfields, -, -, hmessage, -, haad, -, hplain, -⟩ :=
    PeerServer.authenticate_eq_some.mp hauth
  rw [hfields] at hm
  obtain rfl := Option.some.inj (hm.symm.trans hmessage)
  obtain ⟨s, hs, -, hsaad, -, hsmessage⟩ := hideal _ _ _ hplain
  obtain ⟨-, random, hsealing, hmine⟩ := hanswered.sealing
  obtain ⟨-, hsame, -⟩ := hcommit _ (mem_encryptions.mpr ⟨e, he, hsealing⟩) s hs _ hmine hsmessage
  exact replyAad_ne_requestAad _ _ _ (hsame.trans (hsaad.trans haad))

/-- The first field of a frame decides what it is. -/
theorem openReply_request (m : AesGcmMessage) (ticket' : Bytes) :
    openReply ssl ticket key nonce (encode (requestAad ticket') m) = none := by
  have hcut : encode (requestAad ticket') m = REQUEST ++ chr '|' ::
      (ticket' ++ lit "|" ++ toHex m.nonce ++ lit "|" ++ toHex m.ciphertext ++ lit "|" ++ toHex m.tag) := by
    simp [encode, requestAad, lit, chr]
  have hkind : (split (encode (requestAad ticket') m) (chr '|')).getD 0 [] = REQUEST := by
    rw [hcut, split_eq, Delimited.splitOn_cons_field _ (by decide)]
    rfl
  unfold openReply
  dsimp only
  rw [hkind, if_neg (by simp [REQUEST, REPLY, lit])]

theorem respond_reply (m : AesGcmMessage) (peerKey : Bytes) (files : SharedFiles) (disk : PeerServer.Disk) (now : Int)
    (random : Bytes) : respond ssl peerKey files disk now random (encode REPLY m) = DENIED := by
  have hnone : authenticate ssl peerKey now (encode REPLY m) = none := by
    unfold authenticate
    dsimp only
    rw [split_encode (by decide), if_pos (by simp)]
  simp [respond, hnone]

end Ideal

/-- With ideal AES-GCM, whatever an attacker puts together from recorded frames: a downloader opens a frame only if
`respond` made its message for a request with this very ticket text and this very nonce text under this key, and gets
what `respond` encrypted. No request passes for a reply, no reply for a request, and no reply for that to another
request. -/
theorem reply_binding (ssl : OpenSsl) (traffic : List Exchange) (hcommit : Committing ssl (encryptions ssl traffic)) :
    (∀ ticket key nonce frame plain,
      (∀ m, decode (split frame (chr '|')) 1 = some m → IdealGcm ssl (encryptions ssl traffic) m) →
      openReply ssl ticket key nonce frame = some plain →
      ∃ e ∈ traffic, ∃ m, decode (split frame (chr '|')) 1 = some m ∧
        Answered ssl e ticket key (toHex nonce) plain m) ∧
    (∀ now random ticket' key' operation piece request nonce',
      .asked now random ticket' key' operation piece ∈ traffic →
      makeRequest ssl now random ticket' key' operation piece = some (request, nonce') →
      ∃ m, request = encode (requestAad ticket') m ∧ ∀ ticket key nonce frame, frame = request ∨
          decode (split frame (chr '|')) 1 = some m ∧ IdealGcm ssl (encryptions ssl traffic) m →
        openReply ssl ticket key nonce frame = none) ∧
    (∀ e ∈ traffic, ∀ ticket key hexNonce plain m, Answered ssl e ticket key hexNonce plain m →
      (∀ peerKey files disk now random frame, frame = encode REPLY m ∨
          decode (split frame (chr '|')) 2 = some m ∧ IdealGcm ssl (encryptions ssl traffic) m →
        respond ssl peerKey files disk now random frame = DENIED) ∧
      ∀ ticket' key' nonce' frame plain', decode (split frame (chr '|')) 1 = some m →
        IdealGcm ssl (encryptions ssl traffic) m → openReply ssl ticket' key' nonce' frame = some plain' →
        ticket' = ticket ∧ key' = key ∧ toHex nonce' = hexNonce ∧ plain' = plain) := by
  have hopened : ∀ {ticket key nonce frame plain : Bytes} {m : AesGcmMessage},
      decode (split frame (chr '|')) 1 = some m → IdealGcm ssl (encryptions ssl traffic) m →
      openReply ssl ticket key nonce frame = some plain →
      ∃ e ∈ traffic, Answered ssl e ticket key (toHex nonce) plain m := by
    intro ticket key nonce frame plain m hm hideal h
    obtain ⟨e, he, m', hm', hanswered⟩ := answered_of_openReply
      (fun m' hm' => Option.some.inj (hm.symm.trans hm') ▸ hideal) h
    obtain rfl := Option.some.inj (hm.symm.trans hm')
    exact ⟨e, he, hanswered⟩
  refine ⟨fun ticket key nonce frame plain hideal h => answered_of_openReply hideal h, ?_, ?_⟩
  · intro now random ticket' key' operation piece request nonce' hasked hrequest
    obtain ⟨s, m, hsealing, hmessage, haad, rfl⟩ := makeRequest_eq_some hrequest
    refine ⟨m, rfl, fun ticket key nonce frame hframe => ?_⟩
    rcases hframe with rfl | ⟨hm, hideal⟩
    · exact openReply_request m ticket'
    · by_contra hne
      obtain ⟨plain, h⟩ := Option.ne_none_iff_exists'.mp hne
      obtain ⟨e, he, hanswered⟩ := hopened hm hideal h
      obtain ⟨-, random', hsealing', hmine⟩ := hanswered.sealing
      obtain ⟨-, hsame, -⟩ := hcommit _ (mem_encryptions.mpr ⟨e, he, hsealing'⟩) s
        (mem_encryptions.mpr ⟨_, hasked, hsealing⟩) m hmine hmessage
      exact replyAad_ne_requestAad _ _ _ (hsame.trans haad)
  · intro e he ticket key hexNonce plain m hanswered
    refine ⟨fun peerKey files disk now random frame hframe => ?_, fun ticket' key' nonce' frame plain' hm hideal h => ?_⟩
    · rcases hframe with rfl | ⟨hm, hideal⟩
      · exact respond_reply m peerKey files disk now random
      · simp [respond, authenticate_reply hcommit he hanswered hm hideal peerKey now]
    · obtain ⟨e', he', hanswered'⟩ := hopened hm hideal h
      obtain ⟨hbar, random, hsealing, hmine⟩ := hanswered.sealing
      obtain ⟨hbar', random', hsealing', hmine'⟩ := hanswered'.sealing
      obtain ⟨hkey, haad, hplain⟩ := hcommit _ (mem_encryptions.mpr ⟨e', he', hsealing'⟩) _
        (mem_encryptions.mpr ⟨e, he, hsealing⟩) m hmine' hmine
      obtain ⟨hticket, hnonce⟩ := replyAad_injective hbar' hbar haad
      exact ⟨hticket, hkey, hnonce, hplain⟩

section Example

open PeerServer

/-- Bob asks Alice for the first piece of a file, and she answers. -/
def exampleTraffic : List Exchange := [
  .asked 1100 exampleNonce (lit "626f62.67.66.1300") exampleKey (lit "GET") 0,
  .answered examplePeerKey (SharedFiles.empty.add (lit "g") (lit "f") exampleFile)
    ⟨fun _ => some (lit "hello"), []⟩ 1100 exampleReplyNonce (encode (lit "21|626f62.67.66.1300") exampleMessage)]

theorem encryptions_exampleTraffic : encryptions exchange.replay exampleTraffic = [
    ⟨exampleNonce, exampleKey, lit "21|626f62.67.66.1300", lit "GET\n0\n1100"⟩,
    ⟨exampleReplyNonce, exampleKey, lit "30|21|626f62.67.66.1300|707172737475767778797a7b", lit "hello"⟩] := by
  decide +kernel

/-- Bob opens the reply with his own nonce, and with no other one. -/
theorem reply_binding_bob :
    (∃ e ∈ exampleTraffic, ∃ m, decode (split (encode REPLY exampleReply) (chr '|')) 1 = some m ∧
      Answered exchange.replay e (lit "626f62.67.66.1300") exampleKey (toHex exampleNonce) (lit "hello") m) ∧
    openReply exchange.replay (lit "626f62.67.66.1300") exampleKey exampleReplyNonce (encode REPLY exampleReply) =
      none := by
  have hmessages : (⟨exampleNonce, exampleKey, lit "21|626f62.67.66.1300", lit "GET\n0\n1100"⟩ : Sealing).message
        exchange.replay = some exampleMessage ∧
      (⟨exampleReplyNonce, exampleKey, lit "30|21|626f62.67.66.1300|707172737475767778797a7b",
        lit "hello"⟩ : Sealing).message exchange.replay = some exampleReply := by decide +kernel
  have hdecode : decode (split (encode REPLY exampleReply) (chr '|')) 1 = some exampleReply := by decide +kernel
  have hne : exampleMessage ≠ exampleReply := by decide
  have hcommit : Committing exchange.replay (encryptions exchange.replay exampleTraffic) := by
    rw [encryptions_exampleTraffic]
    intro s hs t ht m hm hm'
    simp only [List.mem_cons, List.not_mem_nil, or_false] at hs ht
    rcases hs with rfl | rfl <;> rcases ht with rfl | rfl
    · exact ⟨rfl, rfl, rfl⟩
    · exact absurd (Option.some.inj (hmessages.1.symm.trans (hm.trans (hm'.symm.trans hmessages.2)))) hne
    · exact absurd (Option.some.inj (hmessages.1.symm.trans (hm'.trans (hm.symm.trans hmessages.2)))) hne
    · exact ⟨rfl, rfl, rfl⟩
  have hideal : IdealGcm exchange.replay (encryptions exchange.replay exampleTraffic) exampleReply := by
    rw [encryptions_exampleTraffic]
    intro key aad plain hplain
    obtain ⟨s, hs, rfl, -, rfl, rfl, -, htag⟩ := Recording.of_decrypt (by decide) hplain
    simp only [exchange, List.mem_cons, List.not_mem_nil, or_false] at hs
    rcases hs with rfl | rfl
    · exact absurd htag (by decide)
    · exact ⟨_, by simp, rfl, rfl, rfl, hmessages.2⟩
  have hbinding := reply_binding exchange.replay exampleTraffic hcommit
  obtain ⟨e, he, m, hm, hanswered⟩ := hbinding.1 (lit "626f62.67.66.1300") exampleKey exampleNonce
    (encode REPLY exampleReply) (lit "hello")
    (fun m hm => Option.some.inj (hdecode.symm.trans hm) ▸ hideal) (by decide +kernel)
  refine ⟨⟨e, he, m, hm, hanswered⟩, ?_⟩
  obtain rfl := Option.some.inj (hdecode.symm.trans hm)
  by_contra hopened
  obtain ⟨plain, h⟩ := Option.ne_none_iff_exists'.mp hopened
  obtain ⟨-, -, hnonce, -⟩ := (hbinding.2.2 e he _ _ _ _ _ hanswered).2 _ _ _ _ plain hdecode hideal h
  exact absurd hnonce (by decide)

end Example

end PeerProtocol

end TorrentAtlas
