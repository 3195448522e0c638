import TorrentAtlas.Handshake

/-!
# At-most-once execution

A request is tied to its connection by the session key. The tracker's fresh key and
nonce make every transcript it signs a new one, hashing the transcript makes every
session key a new one, the labels keep the two directions apart, and the handler
reads one frame per connection.
-/
namespace TorrentAtlas

open Encoding Crypto SecureChannel

namespace Crypto

/-- No two of these inputs have the same SHA-256 digest. -/
def CollisionFree (ssl : OpenSsl) (inputs : List Bytes) : Prop :=
  ∀ x ∈ inputs, ∀ y ∈ inputs, ∀ digest, ssl.SHA256 x = some digest → ssl.SHA256 y = some digest → x = y

/-- No message comes from two encryptions that differ in key, data or plaintext. -/
def Committing (ssl : OpenSsl) (log : List Sealing) : Prop :=
  ∀ s ∈ log, ∀ t ∈ log, ∀ m, s.message ssl = some m → t.message ssl = some m →
    s.key = t.key ∧ s.aad = t.aad ∧ s.plain = t.plain

end Crypto

namespace SecureChannel

/-- The frame `SecureChannel::seal` returned. -/
def sealedFrame (ssl : OpenSsl) (s : Sealing) : Bytes := sealFrame ssl s.random s.key s.aad s.plain

variable {ssl : OpenSsl}

/-- A frame long enough to be read is the frame of one encryption only if its message is. -/
theorem message_of_sealedFrame {s : Sealing} {frame : Bytes} (hframe : sealedFrame ssl s = frame)
    (hlen : 28 ≤ frame.length) : s.message ssl = some (messageOf frame) := by
  unfold sealedFrame sealFrame at hframe
  unfold Sealing.message
  split at hframe
  · simp [← hframe] at hlen
  · next m hm =>
    obtain ⟨-, hrandom, -, -, hnonce, -, htag, -⟩ := encrypt_eq_some ssl hm
    rw [hm, ← hframe, messageOf_frameOf (by rw [hnonce, hrandom]) htag]

theorem receive_eq_some {key label frame plain : Bytes} (h : receive ssl key label frame = some plain) :
    28 ≤ frame.length ∧ decrypt ssl key label (messageOf frame) = some plain := by
  unfold receive at h
  split at h
  · simp at h
  · exact ⟨by omega, h⟩

/-- The tracker's fields show its key and nonce. -/
theorem helloFields_injective {now now' : Int} {p q : KeyPair} {nonce nonce' : Bytes}
    (h : helloFields now p nonce = helloFields now' q nonce') : p.publicKey = q.publicKey ∧ nonce = nonce' := by
  have hs := congrArg (List.splitOn (chr '|')) h
  rw [splitOn_helloFields, splitOn_helloFields] at hs
  simp only [List.cons.injEq, and_true] at hs
  have hhex : ∀ {a b : Bytes}, toHex a = toHex b → a = b := by
    intro a b hab
    have := congrArg fromHex hab
    rwa [fromHex_toHex, fromHex_toHex, Option.some.injEq] at this
  exact ⟨hhex hs.1, hhex hs.2.1⟩

/-- A session key together with the transcript that went into it. -/
def KeyOf (ssl : OpenSsl) (hashed : List Bytes) (text key : Bytes) : Prop :=
  ∃ secret : Bytes, secret.length = 32 ∧ secret ++ text ∈ hashed ∧ ssl.SHA256 (secret ++ text) = some key

theorem KeyOf.mono {hashed hashed' : List Bytes} {text key : Bytes} (h : KeyOf ssl hashed text key)
    (hsub : ∀ x ∈ hashed, x ∈ hashed') : KeyOf ssl hashed' text key := by
  obtain ⟨secret, hlen, hmem, hdigest⟩ := h
  exact ⟨secret, hlen, hsub _ hmem, hdigest⟩

/-- With SHA-256 free of collisions a session key belongs to one transcript. -/
theorem KeyOf.unique {hashed : List Bytes} {text text' key : Bytes} (hfree : CollisionFree ssl hashed)
    (h : KeyOf ssl hashed text key) (h' : KeyOf ssl hashed text' key) : text = text' := by
  obtain ⟨secret, hlen, hmem, hdigest⟩ := h
  obtain ⟨secret', hlen', hmem', hdigest'⟩ := h'
  exact (List.append_inj (hfree _ hmem _ hmem' _ hdigest hdigest') (hlen.trans hlen'.symm)).2

theorem keyOf_sessionKey {hashed : List Bytes} {ephemeral : KeyPair} {peerPublic text : Bytes}
    (hlen : (sessionKey ssl ephemeral peerPublic text).length = 32)
    (hmem : World.keyInput ssl ephemeral peerPublic text ∈ hashed) :
    KeyOf ssl hashed text (sessionKey ssl ephemeral peerPublic text) := by
  unfold sessionKey at *
  dsimp only at *
  split at hlen
  · simp at hlen
  · next hsecret =>
    rw [if_neg hsecret]
    refine ⟨x25519SharedSecret ssl ephemeral.privateKey peerPublic, length_x25519SharedSecret hsecret, hmem, ?_⟩
    cases hdigest : ssl.SHA256 (x25519SharedSecret ssl ephemeral.privateKey peerPublic ++ text) with
    | none => simp [sha256, hdigest] at hlen
    | some digest => simp [sha256, hdigest]

end SecureChannel

namespace World

variable {ssl : OpenSsl} {identity : KeyPair}

/-- The tracker's draws are fresh and AES-GCM is ideal, for what one step relies on. -/
def Guarded (ssl : OpenSsl) (w : World) : Action → Prop
  | .accept _ (some ephemeral) nonce _ _ _ =>
    ∀ a ∈ w.accepts, a.offer.ephemeral.publicKey = ephemeral.publicKey → a.offer.nonce ≠ nonce
  | .acceptRequest _ frame _ _ => IdealGcm ssl w.sealings (messageOf frame)
  | _ => True

/-- What a client's run has when its handshake is done. -/
def Keyed (ssl : OpenSsl) (w : World) (r : ConnectRun) : Prop :=
  ∀ session sealing, r.phase = .established session sealing → sealing ∈ w.sealings ∧ sealing.key = session.key ∧
    sealing.plain = r.request ∧ KeyOf ssl w.hashed session.signedText session.key

/-- A request that was applied came in an encryption under the key of its connection, which is used up. -/
def Carried (ssl : OpenSsl) (w : World) (p : Applied) : Prop :=
  ∃ a key, w.accepts[p.connection]? = some a ∧ a.key = some key ∧ a.served = true ∧ 28 ≤ p.frame.length ∧
    ∃ s ∈ w.sealings, s.key = key ∧ s.aad = CLIENT_LABEL ∧ s.plain = p.request ∧
      s.message ssl = some (messageOf p.frame)

structure Once (ssl : OpenSsl) (w : World) : Prop where
  offers : ∀ p ∈ w.offers, OfferOk ssl p.1 p.2
  texts : (w.offers.map (fun p => p.1.signedText)).Nodup
  keys : ∀ p ∈ w.offers, ∀ key, p.2 = some key → KeyOf ssl w.hashed p.1.signedText key
  sessions : ∀ r ∈ w.connects, w.Keyed ssl r
  requests : ∀ p ∈ w.applied, w.Carried ssl p
  connections : (w.applied.map Applied.connection).Nodup

section Monotone

variable {w w' : World} {action : Action}

theorem sealings_mono (h : Change ssl identity w action w') : ∀ s ∈ w.sealings, s ∈ w'.sealings := by
  intro s hs
  cases h <;> simp [hs]

theorem hashed_mono (h : Change ssl identity w action w') : ∀ x ∈ w.hashed, x ∈ w'.hashed := by
  intro x hx
  cases h <;> simp [hx]

/-- A connection keeps its place, its offer and its key, and is never served again. -/
theorem accepts_mono (h : Change ssl identity w action w') {j : Nat} {a : AcceptRun} (ha : w.accepts[j]? = some a) :
    ∃ a', w'.accepts[j]? = some a' ∧ a'.offer = a.offer ∧ a'.key = a.key ∧ (a.served = true → a'.served = true) := by
  have happend : ∀ b : AcceptRun, (w.accepts ++ [b])[j]? = some a := by
    intro b
    rw [List.getElem?_append_left (List.getElem?_eq_some_iff.mp ha).1, ha]
  have hset : ∀ k b, w.accepts[k]? = some b → ∃ a', (w.accepts.set k { b with served := true })[j]? = some a' ∧
      a'.offer = a.offer ∧ a'.key = a.key ∧ (a.served = true → a'.served = true) := by
    intro k b hb
    rw [List.getElem?_set]
    split
    · next hk =>
      subst hk
      obtain rfl := Option.some.inj (ha.symm.trans hb)
      simp [(List.getElem?_eq_some_iff.mp ha).1]
    · exact ⟨a, ha, rfl, rfl, id⟩
  cases h with
  | offered => exact ⟨a, happend _, rfl, rfl, id⟩
  | unsent => exact ⟨a, happend _, rfl, rfl, id⟩
  | dropped k frame context random b hb => exact hset k b hb
  | served k frame context random b key request hb => exact hset k b hb
  | _ => exact ⟨a, ha, rfl, rfl, id⟩

theorem Keyed.mono {r : ConnectRun} (hr : w.Keyed ssl r) (h : Change ssl identity w action w') : w'.Keyed ssl r := by
  intro session sealing hphase
  obtain ⟨hmem, hkey, hplain, hof⟩ := hr session sealing hphase
  exact ⟨sealings_mono h _ hmem, hkey, hplain, hof.mono (hashed_mono h)⟩

theorem Carried.mono {p : Applied} (hp : w.Carried ssl p) (h : Change ssl identity w action w') :
    w'.Carried ssl p := by
  obtain ⟨a, key, ha, hkey, hserved, hlen, s, hs, hrest⟩ := hp
  obtain ⟨a', ha', -, hkey', hserved'⟩ := accepts_mono h ha
  exact ⟨a', key, ha', hkey'.trans hkey, hserved' hserved, hlen, s, sealings_mono h s hs, hrest⟩

end Monotone

/-- A fresh key or nonce of the tracker makes the transcript it signs a new one. -/
theorem signedText_fresh {w : World} {identityPrivateKey hello nonce : Bytes} {parsed now : Int} {o : Offer}
    (hok : ∀ p ∈ w.offers, OfferOk ssl p.1 p.2)
    (hfresh : ∀ a ∈ w.accepts, a.offer.ephemeral.publicKey = o.ephemeral.publicKey → a.offer.nonce ≠ nonce)
    (ho : acceptHello ssl identityPrivateKey parsed now (some o.ephemeral) nonce hello = some o) :
    o.signedText ∉ w.offers.map (fun p => p.1.signedText) := by
  intro hmem
  obtain ⟨p, hp, hsame⟩ := List.mem_map.mp hmem
  obtain ⟨a, ha, rfl⟩ := List.mem_map.mp hp
  obtain ⟨-, -, hnonce, hserver, hsigned, hfields, -⟩ := acceptHello_eq_some ho
  have hold := hok _ hp
  obtain ⟨t, ht⟩ := hold.server
  obtain ⟨-, heq⟩ := transcript_injective hold.fields hfields (by rw [← hold.signed, hsame, hsigned])
  obtain ⟨hkey, hsameNonce⟩ := helloFields_injective (ht.symm.trans (heq.trans hserver))
  exact hfresh a ha hkey (hsameNonce.trans hnonce)

theorem keyed_of_connectFinish {w : World} {r : ConnectRun} {reply random : Bytes} {now : Int} {session : Session}
    (hsession : connectFinish ssl identity.publicKey now r.ephemeral r.hello reply = some session)
    (hmem : (⟨random, session.key, CLIENT_LABEL, r.request⟩ : Sealing) ∈ w.sealings)
    (hinput : keyInput ssl r.ephemeral (serverPublic session) session.signedText ∈ w.hashed) :
    w.Keyed ssl { r with phase := .established session ⟨random, session.key, CLIENT_LABEL, r.request⟩ } := by
  intro session' sealing' hphase
  obtain ⟨rfl, rfl⟩ : session = session' ∧ _ = sealing' := by simpa using hphase
  obtain ⟨hexPublic, hexNonce, time, peerPublic, signature, -, hsplit, hpublic, -, -, hkey, hlen⟩ :=
    connectFinish_eq_some hsession
  have hpeer : serverPublic session = peerPublic := by simp [serverPublic, hsplit, hpublic]
  refine ⟨hmem, rfl, rfl, ?_⟩
  rw [hpeer] at hinput
  rw [hkey] at hlen ⊢
  exact keyOf_sessionKey hlen hinput

theorem init_once : Once ssl init := by
  refine ⟨?_, ?_, ?_, ?_, ?_, ?_⟩ <;> simp [World.offers, init]

theorem Once.step {w : World} {action : Action} (h : Once ssl w) (hguard : Guarded ssl w action) :
    Once ssl (step ssl identity w action).1 := by
  have hchange := step_change ssl identity w action
  generalize (World.step ssl identity w action).1 = w' at hchange
  have hrequests : ∀ p ∈ w.applied, w'.Carried ssl p := fun p hp => (h.requests p hp).mono hchange
  have hsessions : ∀ r ∈ w.connects, w'.Keyed ssl r := fun r hr => (h.sessions r hr).mono hchange
  refine ⟨offersOk_change hchange h.offers, ?_, ?_, ?_, ?_, ?_⟩
  · rcases offers_change hchange with hsame | ⟨hello, nonce, parsed, now, sent, o, key, rfl, ho, -, hadd⟩
    · rw [hsame]
      exact h.texts
    · rw [hadd, List.map_append, List.map_singleton, ← List.concat_eq_append]
      exact h.texts.concat (signedText_fresh h.offers hguard ho)
  · intro p hp key hkey
    rcases offers_change hchange with hsame | ⟨hello, nonce, parsed, now, sent, o, key', rfl, ho, hfinish, hadd⟩
    · exact (h.keys p (hsame ▸ hp) key hkey).mono (hashed_mono hchange)
    · have hnew := offersOk_change hchange h.offers p hp
      rw [hadd] at hp
      rcases List.mem_append.mp hp with hp | hp
      · exact (h.keys p hp key hkey).mono (hashed_mono hchange)
      · rw [List.mem_singleton.mp hp] at hkey hnew ⊢
        obtain ⟨rfl, hlen⟩ := hnew.key key hkey
        exact keyOf_sessionKey hlen (hfinish _ hkey).2
  · cases hchange with
    | started request ephemeral nonce now =>
      intro r hr
      rcases List.mem_append.mp hr with hr | hr
      · exact hsessions r hr
      · rw [List.mem_singleton.mp hr]
        intro session sealing hphase
        simp at hphase
    | refused i reply now random r hr =>
      exact forall_mem_set hsessions (fun session sealing hphase => by simp at hphase)
    | verified i reply now random r session hr hsession =>
      exact forall_mem_set hsessions (keyed_of_connectFinish hsession (by simp) (by simp))
    | answered i frame r response hr =>
      have hold := hsessions r (List.mem_of_getElem? hr)
      exact forall_mem_set hsessions hold
    | _ => exact hsessions
  · cases hchange with
    | served j frame context random a key request ha hkey hserved hreceive =>
      intro p hp
      rcases List.mem_append.mp hp with hp | hp
      · exact hrequests p hp
      · rw [List.mem_singleton.mp hp]
        obtain ⟨hlen, hdecrypt⟩ := receive_eq_some hreceive
        obtain ⟨s, hs, hskey, haad, hplain, hmessage⟩ := hguard key CLIENT_LABEL request hdecrypt
        refine ⟨{ a with served := true }, key, ?_, hkey, rfl, hlen, s, List.mem_append_left _ hs, hskey, haad, hplain,
          hmessage⟩
        simp [(List.getElem?_eq_some_iff.mp ha).1]
    | _ => exact hrequests
  · cases hchange with
    | served j frame context random a key request ha hkey hserved hreceive =>
      rw [List.map_append, List.map_singleton, ← List.concat_eq_append]
      refine h.connections.concat ?_
      intro hmem
      -- A connection of an earlier request is already used up, this one is not.
      obtain ⟨p, hp, rfl⟩ := List.mem_map.mp hmem
      obtain ⟨a', key', ha', -, hused, -⟩ := h.requests p hp
      obtain rfl := Option.some.inj (ha.symm.trans ha')
      simp [hserved] at hused
    | _ => exact h.connections

/-- Connections with one key are one connection. -/
theorem Once.connection_unique {w : World} (h : Once ssl w) (hfree : CollisionFree ssl w.hashed) {i j : Nat}
    {a b : AcceptRun} {key : Bytes} (ha : w.accepts[i]? = some a) (hb : w.accepts[j]? = some b)
    (hakey : a.key = some key) (hbkey : b.key = some key) : i = j := by
  have hget : ∀ {k : Nat} {c : AcceptRun}, w.accepts[k]? = some c → w.offers[k]? = some (c.offer, c.key) := by
    intro k c hc
    simp [World.offers, hc]
  have hof : ∀ {k : Nat} {c : AcceptRun}, w.accepts[k]? = some c → c.key = some key →
      KeyOf ssl w.hashed c.offer.signedText key :=
    fun hc hkey => h.keys _ (List.mem_of_getElem? (hget hc)) key hkey
  have htext := KeyOf.unique hfree (hof ha hakey) (hof hb hbkey)
  refine (List.getElem?_inj ?_ h.texts).mp ?_
  · simpa [World.offers] using (List.getElem?_eq_some_iff.mp ha).1
  · simp [hget ha, hget hb, htext]

/-- An encryption whose frame was accepted as a request was made with the client's label, under the key of the
connection that accepted it. -/
theorem Once.of_frame {w : World} (h : Once ssl w) (hcommit : Committing ssl w.sealings) {p : Applied} {s : Sealing}
    (hp : p ∈ w.applied) (hs : s ∈ w.sealings) (hframe : sealedFrame ssl s = p.frame) :
    s.aad = CLIENT_LABEL ∧ s.plain = p.request ∧
      ∃ a, w.accepts[p.connection]? = some a ∧ a.key = some s.key := by
  obtain ⟨a, key, ha, hkey, -, hlen, t, ht, rfl, haad, hplain, hmessage⟩ := h.requests p hp
  obtain ⟨hkey', haad', hplain'⟩ := hcommit s hs t ht _ (message_of_sealedFrame hframe hlen) hmessage
  exact ⟨haad'.trans haad, hplain'.trans hplain, a, ha, by rw [hkey, hkey']⟩

theorem Once.frames {w : World} (h : Once ssl w) (hcommit : Committing ssl w.sealings)
    (hfree : CollisionFree ssl w.hashed) : (w.applied.map Applied.frame).Nodup := by
  refine List.Nodup.map_on (fun p hp q hq hframe => ?_) (List.Nodup.of_map _ h.connections)
  refine List.inj_on_of_nodup_map h.connections hp hq ?_
  obtain ⟨a, key, ha, hkey, -, -, s, hs, rfl, -, -, hmessage⟩ := h.requests p hp
  obtain ⟨b, key', hb, hkey', -, -, t, ht, rfl, -, -, hmessage'⟩ := h.requests q hq
  obtain ⟨hsame, -⟩ := hcommit s hs t ht _ hmessage (by rw [hmessage', hframe])
  exact h.connection_unique hfree ha hb hkey (by rw [hkey', hsame])

/-- No frame is applied twice and no connection applies two requests. A request that a client sent is applied only
as it sent it and only on the connection with the transcript it verified. A frame is accepted on no connection but the
one whose key it was made with, and no frame of the tracker is accepted. -/
theorem at_most_once (ssl : OpenSsl) (identity : KeyPair) (actions : List Action)
    (hguard : Machine.Along (World.step ssl identity) (Guarded ssl) init actions)
    (hcommit : Committing ssl (Machine.run (World.step ssl identity) init actions).sealings)
    (hfree : CollisionFree ssl (Machine.run (World.step ssl identity) init actions).hashed) :
    let w := Machine.run (World.step ssl identity) init actions
    (w.applied.map Applied.frame).Nodup ∧ (w.applied.map Applied.connection).Nodup ∧
    (∀ r ∈ w.connects, ∀ session sealing, r.phase = .established session sealing → ∀ p ∈ w.applied,
      sealedFrame ssl sealing = p.frame → p.request = r.request ∧
        ∃ a, w.accepts[p.connection]? = some a ∧ a.offer.signedText = session.signedText ∧
          a.key = some session.key) ∧
    ∀ s ∈ w.sealings, ∀ p ∈ w.applied, sealedFrame ssl s = p.frame → s.aad ≠ TRACKER_LABEL ∧
      ∀ j a, w.accepts[j]? = some a → a.key = some s.key → p.connection = j := by
  intro w
  have h : Once ssl w := Machine.invariant_along init_once (fun _ _ h hg => h.step hg) hguard
  refine ⟨h.frames hcommit hfree, h.connections, ?_, ?_⟩
  · intro r hr session sealing hphase p hp hframe
    obtain ⟨hmem, hkey, hplain, hof⟩ := h.sessions r hr session sealing hphase
    obtain ⟨-, hrequest, a, ha, hakey⟩ := h.of_frame hcommit hp hmem hframe
    have hoffer : (a.offer, a.key) ∈ w.offers := List.mem_map_of_mem (List.mem_of_getElem? ha)
    have htext := KeyOf.unique hfree (h.keys _ hoffer _ (hakey.trans (by rw [hkey]))) hof
    exact ⟨hrequest.symm.trans hplain, a, ha, htext, by rw [hakey, hkey]⟩
  · intro s hs p hp hframe
    obtain ⟨haad, -, a, ha, hakey⟩ := h.of_frame hcommit hp hs hframe
    refine ⟨by rw [haad]; decide, fun j b hb hbkey => ?_⟩
    exact h.connection_unique hfree ha hb hakey hbkey

section Example

def requestSealing : Sealing := ⟨ofHex 12 0x707172737475767778797a7b, channelKey, CLIENT_LABEL, listGroups⟩

def requestMessage : AesGcmMessage :=
  ⟨requestSealing.random, ofHex 15 0x0a1f191db162da98211e0d3f0d4a85, ofHex 16 0x2f8e4dc981b446e93f49d448a4577b7f⟩

def replySealing : Sealing :=
  ⟨ofHex 12 0x808182838485868788898a8b, channelKey, TRACKER_LABEL, lit "ERR login required\t0"⟩

def replyMessage : AesGcmMessage :=
  ⟨replySealing.random, ofHex 20 0x0df104f6ff676d3ab32eb5df14db2645c6c9abb9, ofHex 16 0x39c83c78792cb8ff7531ad026408d547⟩

def sealedRecording : Recording :=
  { recording with
    sealed := [⟨requestSealing.key, requestSealing.random, requestSealing.aad, requestSealing.plain,
        requestMessage.ciphertext, requestMessage.tag⟩,
      ⟨replySealing.key, replySealing.random, replySealing.aad, replySealing.plain, replyMessage.ciphertext,
        replyMessage.tag⟩] }

/-- The client's request is delivered, then replayed on its own connection and on the other one. -/
def replayedRequest : List Action := replayedHello ++ [
  .acceptRequest 0 (frameOf requestMessage) ⟨[], 0, 1003⟩ replySealing.random,
  .acceptRequest 0 (frameOf requestMessage) ⟨[], 0, 1004⟩ [],
  .acceptRequest 1 (frameOf requestMessage) ⟨[], 0, 1004⟩ []]

theorem requestSealing_message : requestSealing.message sealedRecording.replay = some requestMessage := by
  decide +kernel

theorem idealGcm_requestMessage {log : List Sealing} (h : requestSealing ∈ log) :
    IdealGcm sealedRecording.replay log (messageOf (frameOf requestMessage)) := by
  rw [messageOf_frameOf (by decide) (by decide)]
  intro key aad plain hplain
  obtain ⟨s, hs, rfl, -, rfl, rfl, -, htag⟩ := Recording.of_decrypt (by decide) hplain
  simp only [sealedRecording, List.mem_cons, List.not_mem_nil, or_false] at hs
  rcases hs with rfl | rfl
  · exact ⟨requestSealing, h, rfl, rfl, rfl, requestSealing_message⟩
  · exact absurd htag (by decide)

theorem at_most_once_replayed :
    let w := Machine.run (World.step sealedRecording.replay trackerIdentity) init replayedRequest
    w.applied = [⟨0, frameOf requestMessage, listGroups⟩] ∧ (w.applied.map Applied.frame).Nodup ∧
      ∃ a, w.accepts[0]? = some a ∧ a.offer.signedText = signedText ∧ a.key = some channelKey := by
  intro w
  let session : Session := ⟨helloFields 1001 ofTracker trackerNonce, signedText, channelKey⟩
  -- One evaluation of the run answers for everything at its end.
  have hrun : w.applied = [⟨0, frameOf requestMessage, listGroups⟩] ∧ w.sealings = [requestSealing, replySealing] ∧
      w.hashed = [secret ++ signedText, secret' ++ signedText', secret ++ signedText] ∧
      ⟨listGroups, ofClient, clientNonce, 1000, .established session requestSealing, none⟩ ∈ w.connects := by
    decide +kernel
  obtain ⟨happlied, hsealings, hhashed, hclientRun⟩ := hrun
  have hguard : Machine.Along (World.step sealedRecording.replay trackerIdentity) (Guarded sealedRecording.replay) init
      replayedRequest :=
    ⟨trivial, by simp only [Guarded]; decide +kernel, by simp only [Guarded]; decide +kernel, trivial,
      idealGcm_requestMessage (by decide +kernel), idealGcm_requestMessage (by decide +kernel),
      idealGcm_requestMessage (by decide +kernel), trivial⟩
  have hcommit : Committing sealedRecording.replay w.sealings := by
    have hreply : replySealing.message sealedRecording.replay ≠ some requestMessage := by decide +kernel
    rw [hsealings]
    intro s hs t ht m hm hm'
    simp only [List.mem_cons, List.not_mem_nil, or_false] at hs ht
    rcases hs with rfl | rfl <;> rcases ht with rfl | rfl
    · exact ⟨rfl, rfl, rfl⟩
    · exact absurd (hm'.trans (hm.symm.trans requestSealing_message)) hreply
    · exact absurd (hm.trans (hm'.symm.trans requestSealing_message)) hreply
    · exact ⟨rfl, rfl, rfl⟩
  have hfree : CollisionFree sealedRecording.replay w.hashed := by
    have hne : sealedRecording.replay.SHA256 (secret ++ signedText) ≠
        sealedRecording.replay.SHA256 (secret' ++ signedText') := by decide +kernel
    rw [hhashed]
    generalize secret ++ signedText = input, secret' ++ signedText' = input' at hne ⊢
    intro x hx y hy digest hdx hdy
    simp only [List.mem_cons, List.not_mem_nil, or_false] at hx hy
    rcases hx with rfl | rfl | rfl <;> rcases hy with rfl | rfl | rfl <;>
      first
        | rfl
        | exact absurd (hdx.trans hdy.symm) hne
        | exact absurd (hdy.trans hdx.symm) hne
  obtain ⟨hframes, -, hclient, -⟩ :=
    at_most_once sealedRecording.replay trackerIdentity replayedRequest hguard hcommit hfree
  refine ⟨happlied, hframes, ?_⟩
  have happly : ⟨0, frameOf requestMessage, listGroups⟩ ∈ w.applied := by
    rw [happlied]
    exact List.mem_singleton_self _
  exact (hclient _ hclientRun session requestSealing rfl _ happly (by decide +kernel)).2

end Example

end World

end TorrentAtlas
