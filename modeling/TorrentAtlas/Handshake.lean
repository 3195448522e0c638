import TorrentAtlas.Connections

/-!
# Handshake agreement

Both ends put the signed text together from different strings: the client from its
own hello and the fields of the reply, the tracker from the hello it received and
the fields it sent. A text has one reading as such a pair, so a signature that the
tracker made fixes both, and with them both keys.
-/
namespace TorrentAtlas

open Encoding Crypto SecureChannel

namespace SecureChannel

/-- The text and signature that `connect` checks in a reply. -/
def checkedSignature (hello reply : Bytes) : Option (Bytes × Bytes) :=
  let fields := split reply (chr '|')
  (fromHex (fields.getD 4 [])).map (fun signature =>
    (transcript hello (fields.getD 1 [] ++ lit "|" ++ fields.getD 2 [] ++ lit "|" ++ fields.getD 3 []), signature))

/-- Both ends of an exchange derive the same secret. -/
def Commutes (ssl : OpenSsl) (p q : KeyPair) : Prop :=
  x25519SharedSecret ssl p.privateKey q.publicKey = x25519SharedSecret ssl q.privateKey p.publicKey

instance (ssl : OpenSsl) (p q : KeyPair) : Decidable (Commutes ssl p q) := inferInstanceAs (Decidable (_ = _))

variable {ssl : OpenSsl}

theorem checkedSignature_of_connectFinish {trackerPublicKey hello reply : Bytes} {now : Int} {ephemeral : KeyPair}
    {session : Session} (h : connectFinish ssl trackerPublicKey now ephemeral hello reply = some session) :
    ∃ signature, checkedSignature hello reply = some (session.signedText, signature) ∧
      ed25519Verify ssl trackerPublicKey session.signedText signature = true := by
  unfold connectFinish at h
  dsimp only at h
  split at h
  · simp at h
  · split at h
    · simp at h
    · next signature hsignature =>
      split at h
      · simp at h
      · next hverify =>
        split at h
        · simp at h
        · obtain rfl := Option.some.inj h
          exact ⟨signature, by simp only [checkedSignature, hsignature, Option.map_some], by simpa using hverify⟩

/-- What holds of every offer of the tracker. -/
structure OfferOk (ssl : OpenSsl) (o : Offer) (key : Option Bytes) : Prop where
  signed : o.signedText = transcript o.hello o.serverFields
  fields : (o.hello.splitOn (chr '|')).length = 4
  clientPublic : fromHex ((o.hello.splitOn (chr '|')).getD 1 []) = some o.clientPublic
  server : ∃ now, o.serverFields = helloFields now o.ephemeral o.nonce
  key : ∀ k, key = some k → k = sessionKey ssl o.ephemeral o.clientPublic o.signedText ∧ k.length = 32

theorem offerOk_of_acceptHello {identityPrivateKey hello nonce : Bytes} {parsed now : Int}
    {ephemeral : Option KeyPair} {o : Offer} {key : Option Bytes}
    (h : acceptHello ssl identityPrivateKey parsed now ephemeral nonce hello = some o)
    (hkey : ∀ k, key = some k → acceptFinish ssl o = some k) : OfferOk ssl o key := by
  obtain ⟨-, -, -, hserver, hsigned, hfields, hpublic⟩ := acceptHello_eq_some h
  refine ⟨hsigned, hfields, hpublic, ⟨now, hserver⟩, fun k hk => ?_⟩
  have hfinish := hkey k hk
  unfold acceptFinish at hfinish
  dsimp only at hfinish
  split at hfinish
  · simp at hfinish
  · next hlen =>
    obtain rfl := Option.some.inj hfinish
    exact ⟨rfl, by simpa using hlen⟩

/-- A transcript that the client has verified and the tracker has signed was built from the same
hello and the same fields on both sides, and gives both sides one key. -/
theorem agreement {trackerPublicKey nonce reply : Bytes} {started now : Int} {ephemeral : KeyPair} {session : Session}
    {o : Offer} {key : Option Bytes}
    (hsession : connectFinish ssl trackerPublicKey now ephemeral (connectHello started ephemeral nonce) reply =
      some session)
    (ho : OfferOk ssl o key) (hsame : o.signedText = session.signedText) (hx : Commutes ssl ephemeral o.ephemeral) :
    o.hello = connectHello started ephemeral nonce ∧ o.serverFields = session.serverFields ∧
      ∀ k, key = some k → k = session.key := by
  obtain ⟨hexPublic, hexNonce, time, serverPublic, signature, -, hsplit, hpublic, htext, -, hkey, -⟩ :=
    connectFinish_eq_some hsession
  have hfour : ((connectHello started ephemeral nonce).splitOn (chr '|')).length = 4 := by rw [splitOn_connectHello]; rfl
  obtain ⟨hhello, hserver⟩ := transcript_injective ho.fields hfour (by rw [← ho.signed, hsame, htext])
  refine ⟨hhello, hserver, fun k hk => ?_⟩
  have hclient : o.clientPublic = ephemeral.publicKey := by
    have hp := ho.clientPublic
    rw [hhello, splitOn_connectHello] at hp
    simpa using hp.symm
  have htracker : serverPublic = o.ephemeral.publicKey := by
    obtain ⟨t, ht⟩ := ho.server
    rw [← hserver, ht, splitOn_helloFields] at hsplit
    rw [← (List.cons.inj hsplit).1, fromHex_toHex] at hpublic
    exact (Option.some.inj hpublic).symm
  rw [(ho.key k hk).1, hkey, hclient, htracker, hsame]
  simp only [sessionKey]
  rw [show x25519SharedSecret ssl o.ephemeral.privateKey ephemeral.publicKey = _ from hx.symm]

end SecureChannel

namespace World

variable {ssl : OpenSsl} {identity : KeyPair}

/-- Ed25519 under the tracker's key is unforgeable and X25519 commutes, for what one step relies on. -/
def Trusted (ssl : OpenSsl) (identity : KeyPair) (w : World) : Action → Prop
  | .connectReply i reply _ _ => ∀ r, w.connects[i]? = some r →
    (∀ text signature, checkedSignature r.hello reply = some (text, signature) →
      ed25519Verify ssl identity.publicKey text signature = true → ∃ a ∈ w.accepts, a.offer.signedText = text) ∧
    ∀ a ∈ w.accepts, Commutes ssl r.ephemeral a.offer.ephemeral
  | _ => True

/-- The part of the tracker's connections that serving a request does not change. -/
def offers (w : World) : List (Offer × Option Bytes) := w.accepts.map (fun a => (a.offer, a.key))

theorem offers_served {w : World} {j : Nat} {a : AcceptRun} (ha : w.accepts[j]? = some a) :
    (w.accepts.set j { a with served := true }).map (fun a => (a.offer, a.key)) = w.offers := by
  rw [List.map_set]
  refine List.ext_getElem? fun k => ?_
  rw [List.getElem?_set, offers, List.getElem?_map]
  split
  · next hk =>
    subst hk
    obtain ⟨hlt, hget⟩ := List.getElem?_eq_some_iff.mp ha
    simp [hlt, hget]
  · rfl

/-- An established run of `connect` has its counterpart among the tracker's connections. -/
def Agreed (w : World) (r : ConnectRun) : Prop :=
  ∀ session sealing, r.phase = .established session sealing → ∃ p ∈ w.offers, p.1.hello = r.hello ∧
    p.1.serverFields = session.serverFields ∧ p.1.signedText = session.signedText ∧
    ∀ key, p.2 = some key → key = session.key

structure Agreement (ssl : OpenSsl) (w : World) : Prop where
  offers : ∀ p ∈ w.offers, OfferOk ssl p.1 p.2
  agreed : ∀ r ∈ w.connects, w.Agreed r

theorem Agreed.mono {w w' : World} {r : ConnectRun} (h : w.Agreed r) (hoffers : ∀ p ∈ w.offers, p ∈ w'.offers) :
    w'.Agreed r := by
  intro session sealing hphase
  obtain ⟨p, hp, hrest⟩ := h session sealing hphase
  exact ⟨p, hoffers p hp, hrest⟩

/-- A step leaves the tracker's connections as they are, or adds one for which it signs a transcript. -/
theorem offers_change {w w' : World} {action : Action} (h : Change ssl identity w action w') :
    w'.offers = w.offers ∨ ∃ hello nonce parsed now sent o key,
      action = .accept hello (some o.ephemeral) nonce parsed now sent ∧
      acceptHello ssl identity.privateKey parsed now (some o.ephemeral) nonce hello = some o ∧
      (∀ k, key = some k → acceptFinish ssl o = some k ∧
        keyInput ssl o.ephemeral o.clientPublic o.signedText ∈ w'.hashed) ∧
      w'.offers = w.offers ++ [(o, key)] := by
  cases h with
  | offered hello nonce parsed now o ho =>
    exact Or.inr ⟨hello, nonce, parsed, now, true, o, acceptFinish ssl o, rfl, ho,
      fun k hk => ⟨hk, by simp⟩, by simp [World.offers]⟩
  | unsent hello nonce parsed now o ho =>
    exact Or.inr ⟨hello, nonce, parsed, now, false, o, none, rfl, ho, by simp, by simp [World.offers]⟩
  | dropped j frame context random a ha => exact Or.inl (offers_served ha)
  | served j frame context random a key request ha => exact Or.inl (offers_served ha)
  | _ => exact Or.inl rfl

theorem offers_mono {w w' : World} {action : Action} (h : Change ssl identity w action w') :
    ∀ p ∈ w.offers, p ∈ w'.offers := by
  intro p hp
  rcases offers_change h with hsame | ⟨_, _, _, _, _, o, key, _, _, _, hadd⟩
  · rwa [hsame]
  · rw [hadd]
    exact List.mem_append_left _ hp

theorem offersOk_change {w w' : World} {action : Action} (h : Change ssl identity w action w')
    (hok : ∀ p ∈ w.offers, OfferOk ssl p.1 p.2) : ∀ p ∈ w'.offers, OfferOk ssl p.1 p.2 := by
  intro p hp
  rcases offers_change h with hsame | ⟨_, _, _, _, _, o, key, _, ho, hkey, hadd⟩
  · exact hok p (hsame ▸ hp)
  · rw [hadd] at hp
    rcases List.mem_append.mp hp with hp | hp
    · exact hok p hp
    · rw [List.mem_singleton.mp hp]
      exact offerOk_of_acceptHello ho (fun k hk => (hkey k hk).1)

/-- What holds of every run and of the one that replaces a run holds of every run again. -/
theorem forall_mem_set {α : Type} {P : α → Prop} {runs : List α} {i : Nat} {r' : α} (h : ∀ r ∈ runs, P r) (hr' : P r') :
    ∀ r ∈ runs.set i r', P r := by
  intro r hr
  rcases List.mem_or_eq_of_mem_set hr with hr | rfl
  · exact h r hr
  · exact hr'

theorem Agreement.step {w : World} {action : Action} (h : Agreement ssl w) (htrust : Trusted ssl identity w action) :
    Agreement ssl (step ssl identity w action).1 := by
  have hchange := step_change ssl identity w action
  generalize (World.step ssl identity w action).1 = w' at hchange
  have hmono := offers_mono hchange
  refine ⟨offersOk_change hchange h.offers, ?_⟩
  cases hchange with
  | started request ephemeral nonce now =>
    intro r hr
    rcases List.mem_append.mp hr with hr | hr
    · exact h.agreed r hr
    · rw [List.mem_singleton.mp hr]
      intro session sealing hphase
      simp at hphase
  | refused i reply now random r hr =>
    exact forall_mem_set h.agreed (fun session sealing hphase => by simp at hphase)
  | verified i reply now random r session hr hsession =>
    refine forall_mem_set h.agreed ?_
    rintro session' sealing' hphase
    obtain ⟨rfl, rfl⟩ : session = session' ∧ _ = sealing' := by simpa using hphase
    obtain ⟨hunforged, hx⟩ := htrust r hr
    obtain ⟨signature, hchecked, hverify⟩ := checkedSignature_of_connectFinish hsession
    obtain ⟨a, ha, hsame⟩ := hunforged _ _ hchecked hverify
    have hmem : (a.offer, a.key) ∈ w.offers := List.mem_map_of_mem ha
    obtain ⟨hhello, hserver, hkey⟩ := agreement hsession (h.offers _ hmem) hsame (hx a ha)
    exact ⟨_, hmem, hhello, hserver, hsame, hkey⟩
  | answered i frame r response hr =>
    have hold := h.agreed r (List.mem_of_getElem? hr)
    exact forall_mem_set h.agreed hold
  | _ => exact fun r hr => (h.agreed r hr).mono hmono

theorem init_agreement : Agreement ssl init := ⟨by simp [World.offers, init], by simp [init]⟩

/-- The hypotheses of an undisturbed handshake: sizes, clocks and working primitives. -/
structure Undisturbed (ssl : OpenSsl) (identity client tracker : KeyPair) (clientNonce trackerNonce : Bytes)
    (started parsed replied finished : Int) : Prop where
  hclientPublic : client.publicKey.length = 32
  htrackerPublic : tracker.publicKey.length = 32
  hclientNonce : clientNonce.length = 16
  htrackerNonce : trackerNonce.length = 16
  hclocks : 0 ≤ started ∧ 0 ≤ replied ∧ parsed ≤ 2 ^ 62 ∧ finished ≤ 2 ^ 62
  hhello : |started - parsed| ≤ 300
  hreply : |replied - finished| ≤ 300
  hcommutes : Commutes ssl client tracker
  hsecret : x25519SharedSecret ssl client.privateKey tracker.publicKey ≠ []
  hsigns : let text := transcript (connectHello started client clientNonce) (helloFields replied tracker trackerNonce)
    ed25519Sign ssl identity.privateKey text ≠ [] ∧
      ed25519Verify ssl identity.publicKey text (ed25519Sign ssl identity.privateKey text) = true
  hhashes : (sha256 ssl (keyInput ssl client tracker.publicKey
    (transcript (connectHello started client clientNonce) (helloFields replied tracker trackerNonce)))).length = 32

theorem parseHello_fields {now stamp : Int} {publicKey nonce : Bytes} (rest : List Bytes)
    (hpublic : publicKey.length = 32)
    (hnonce : nonce.length = 16) (hstamp : 0 ≤ stamp) (hfresh : |stamp - now| ≤ 300) (hnow : now ≤ 2 ^ 62) :
    parseHello now (lit "HELLO" :: toHex publicKey :: toHex nonce :: decimalInt stamp :: rest) (rest.length + 4) =
      some publicKey := by
  simp [parseHello, hpublic, hnonce, isFreshTimestamp_decimalInt hstamp hfresh hnow]

/-- Without interference both sides succeed, with one key. -/
theorem Undisturbed.succeeds {client tracker : KeyPair} {clientNonce trackerNonce : Bytes}
    {started parsed replied finished : Int}
    (h : Undisturbed ssl identity client tracker clientNonce trackerNonce started parsed replied finished) :
    ∃ o key, acceptHello ssl identity.privateKey parsed replied (some tracker) trackerNonce
        (connectHello started client clientNonce) = some o ∧ acceptFinish ssl o = some key ∧
      connectFinish ssl identity.publicKey finished client (connectHello started client clientNonce) o.reply =
        some ⟨o.serverFields, o.signedText, key⟩ := by
  obtain ⟨hstarted, hreplied, hparsed, hfinished⟩ := h.hclocks
  generalize htext :
    transcript (connectHello started client clientNonce) (helloFields replied tracker trackerNonce) = text
  obtain ⟨hsign, hverify⟩ := h.hsigns
  have hhash := h.hhashes
  rw [htext] at hsign hverify hhash
  have hsecret := h.hsecret
  have hsame : x25519SharedSecret ssl tracker.privateKey client.publicKey =
      x25519SharedSecret ssl client.privateKey tracker.publicKey := h.hcommutes.symm
  have hclient : parseHello parsed (split (connectHello started client clientNonce) (chr '|')) 4 =
      some client.publicKey := by
    rw [split_eq, splitOn_connectHello]
    exact parseHello_fields [] h.hclientPublic h.hclientNonce hstarted h.hhello hparsed
  have hkey : ∀ p q : KeyPair, x25519SharedSecret ssl p.privateKey q.publicKey =
      x25519SharedSecret ssl client.privateKey tracker.publicKey → sessionKey ssl p q.publicKey text =
        sha256 ssl (keyInput ssl client tracker.publicKey text) := by
    intro p q hpq
    simp only [sessionKey, hpq, keyInput, List.isEmpty_iff]
    rw [if_neg hsecret]
  generalize hsig : ed25519Sign ssl identity.privateKey text = signature at hsign hverify
  refine ⟨⟨connectHello started client clientNonce, client.publicKey, tracker, trackerNonce,
      helloFields replied tracker trackerNonce, text, signature⟩,
    sha256 ssl (keyInput ssl client tracker.publicKey text), ?_, ?_, ?_⟩
  · simp only [acceptHello, hclient, h.htrackerNonce, htext, hsig]
    simp [hsign]
  · simp only [acceptFinish, hkey tracker client hsame, hhash]
    simp
  · have hsplit : split (lit "HELLO|" ++ helloFields replied tracker trackerNonce ++ lit "|" ++ toHex signature)
        (chr '|') = [lit "HELLO", toHex tracker.publicKey, toHex trackerNonce, decimalInt replied, toHex signature] := by
      have hcut : lit "HELLO|" ++ helloFields replied tracker trackerNonce ++ lit "|" ++ toHex signature =
          lit "HELLO" ++ chr '|' :: (helloFields replied tracker trackerNonce ++ chr '|' :: toHex signature) := by
        simp [lit, chr]
      rw [split_eq, hcut, Delimited.splitOn_cons_field _ (by decide), List.splitOn_append_cons_self,
        splitOn_helloFields, List.splitOn_eq_singleton (not_mem_toHex (by decide) _)]
      rfl
    have hfields : toHex tracker.publicKey ++ lit "|" ++ toHex trackerNonce ++ lit "|" ++ decimalInt replied =
        helloFields replied tracker trackerNonce := rfl
    have hserver := parseHello_fields [toHex signature] h.htrackerPublic h.htrackerNonce hreplied h.hreply hfinished
    simp only [connectFinish, Offer.reply, hsplit]
    rw [show (5 : Nat) = [toHex signature].length + 4 from rfl, hserver]
    simp only [List.getD_cons_succ, List.getD_cons_zero, fromHex_toHex, hfields, htext, hverify, Bool.not_true,
      Bool.false_eq_true, if_false, hkey client tracker rfl, hhash]
    simp

/-- Whenever a client's `connect` succeeds, a connection of the tracker received exactly its hello and sent
exactly the fields it used, with one transcript and one key; and left alone, both sides succeed. -/
theorem handshake_agreement (ssl : OpenSsl) (identity : KeyPair) :
    (∀ actions, Machine.Along (World.step ssl identity) (Trusted ssl identity) init actions →
      ∀ r ∈ (Machine.run (World.step ssl identity) init actions).connects, ∀ session sealing,
        r.phase = .established session sealing →
        ∃ a ∈ (Machine.run (World.step ssl identity) init actions).accepts, a.offer.hello = r.hello ∧
          a.offer.serverFields = session.serverFields ∧ a.offer.signedText = session.signedText ∧
          ∀ key, a.key = some key → key = session.key) ∧
    ∀ (client tracker : KeyPair) (clientNonce trackerNonce : Bytes) (started parsed replied finished : Int),
      Undisturbed ssl identity client tracker clientNonce trackerNonce started parsed replied finished →
      ∃ o key, acceptHello ssl identity.privateKey parsed replied (some tracker) trackerNonce
          (connectHello started client clientNonce) = some o ∧ acceptFinish ssl o = some key ∧
        connectFinish ssl identity.publicKey finished client (connectHello started client clientNonce) o.reply =
          some ⟨o.serverFields, o.signedText, key⟩ := by
  refine ⟨fun actions htrust r hr session sealing hphase => ?_, fun _ _ _ _ _ _ _ _ h => h.succeeds⟩
  have hinv := Machine.invariant_along init_agreement (fun _ _ h htrust => h.step htrust) htrust
  obtain ⟨p, hp, hrest⟩ := hinv.agreed r hr session sealing hphase
  obtain ⟨a, ha, rfl⟩ := List.mem_map.mp hp
  exact ⟨a, ha, hrest⟩

section Example

def trackerIdentity : KeyPair :=
  ⟨ofHex 32 0x0102030405060708090a0b0c0d0e0f101112131415161718191a1b1c1d1e1f20,
    ofHex 32 0x79b5562e8fe654f94078b112e8a98ba7901f853ae695bed7e0e3910bad049664⟩

def ofClient : KeyPair :=
  ⟨ofHex 32 0x2122232425262728292a2b2c2d2e2f303132333435363738393a3b3c3d3e3f40,
    ofHex 32 0x5869aff450549732cbaaed5e5df9b30a6da31cb0e5742bad5ad4a1a768f1a67b⟩

def ofTracker : KeyPair :=
  ⟨ofHex 32 0x4142434445464748494a4b4c4d4e4f505152535455565758595a5b5c5d5e5f60,
    ofHex 32 0x64b101b1d0be5a8704bd078f9895001fc03e8e9f9522f188dd128d9846d48466⟩

/-- The tracker's key pair for a second connection. -/
def ofTracker' : KeyPair :=
  ⟨ofHex 32 0x6162636465666768696a6b6c6d6e6f707172737475767778797a7b7c7d7e7f80,
    ofHex 32 0x244fe3b963e899dd295baffce248d3530f3a9a7479ba063002680ebfe7adad49⟩

def clientNonce : Bytes := ofHex 16 0x000102030405060708090a0b0c0d0e0f
def trackerNonce : Bytes := ofHex 16 0x101112131415161718191a1b1c1d1e1f
def trackerNonce' : Bytes := ofHex 16 0x202122232425262728292a2b2c2d2e2f

def helloOfClient : Bytes := connectHello 1000 ofClient clientNonce
def signedText : Bytes := transcript helloOfClient (helloFields 1001 ofTracker trackerNonce)
def signedText' : Bytes := transcript helloOfClient (helloFields 1002 ofTracker' trackerNonce')

def signature : Bytes := ofHex 64
  0x781e01487db44d898410de35f97fb359bb83c1c3f9050b913334cdb515523dd2fcbada9f6396c4ecca97911af4087c0f0696b40c3a499cf25b16f15e745d460e

def signature' : Bytes := ofHex 64
  0xf949c76db49124b82e4f45850d13b285ebbcd7be52e2766d879e48347349cbb31dc4d3c4bcdbf9d75629764aecc4da36ee01d0efaf26866408b22bfa00c35804

def secret : Bytes := ofHex 32 0xb6ddcb217f2edb78fe01f0d967925f1e3fda132789e4566ddc2abcd3e2fd9526
def secret' : Bytes := ofHex 32 0xc84ff380f2f65070b8b9abbc433814d11a6f6614a045d86785a9dbb608fc9848
def channelKey : Bytes := ofHex 32 0x5d837f8780322c010641b56a1f62d7feb0d90357e8bcb10e12ef65f64bfb8c69
def channelKey' : Bytes := ofHex 32 0xc514eb603a0759e2e7391476583b6f7281c0795b4c62ad9e5b95d88299b50044

def recording : Recording where
  sha256 := [(secret ++ signedText, channelKey), (secret' ++ signedText', channelKey')]
  signed := [((trackerIdentity.privateKey, signedText), signature),
    ((trackerIdentity.privateKey, signedText'), signature')]
  verified := [(trackerIdentity.publicKey, signedText, signature), (trackerIdentity.publicKey, signedText', signature')]
  derived := [((ofClient.privateKey, ofTracker.publicKey), secret),
    ((ofTracker.privateKey, ofClient.publicKey), secret),
    ((ofClient.privateKey, ofTracker'.publicKey), secret'),
    ((ofTracker'.privateKey, ofClient.publicKey), secret')]

def listGroups : Bytes := lit "C\t0\tlist_groups"

/-- A client's hello reaches the tracker, is replayed on a second connection, and the first answer is delivered. -/
def replayedHello : List Action := [
  .connect listGroups (some ofClient) clientNonce 1000,
  .accept helloOfClient (some ofTracker) trackerNonce 1000 1001 true,
  .accept helloOfClient (some ofTracker') trackerNonce' 1002 1002 true,
  .connectReply 0 (lit "HELLO|" ++ helloFields 1001 ofTracker trackerNonce ++ lit "|" ++ toHex signature) 1003
    (ofHex 12 0x707172737475767778797a7b)]

theorem handshake_agreement_replayed_hello :
    (∃ a ∈ (Machine.run (World.step recording.replay trackerIdentity) init replayedHello).accepts,
      a.offer.hello = helloOfClient ∧ a.offer.serverFields = helloFields 1001 ofTracker trackerNonce ∧
      a.offer.signedText = signedText ∧ ∀ key, a.key = some key → key = channelKey) ∧
    ∃ o key,
      acceptHello recording.replay trackerIdentity.privateKey 1000 1001 (some ofTracker) trackerNonce helloOfClient =
        some o ∧ acceptFinish recording.replay o = some key ∧
      connectFinish recording.replay trackerIdentity.publicKey 1003 ofClient helloOfClient o.reply =
        some ⟨o.serverFields, o.signedText, key⟩ := by
  have hagree := handshake_agreement recording.replay trackerIdentity
  refine ⟨?_, hagree.2 ofClient ofTracker clientNonce trackerNonce 1000 1000 1001 1003 ?_⟩
  · let session : Session := ⟨helloFields 1001 ofTracker trackerNonce, signedText, channelKey⟩
    let sealing : Sealing := ⟨ofHex 12 0x707172737475767778797a7b, channelKey, CLIENT_LABEL, listGroups⟩
    refine hagree.1 replayedHello ⟨trivial, trivial, trivial, fun r hr => ?_, trivial⟩
      ⟨listGroups, ofClient, clientNonce, 1000, .established session sealing, none⟩ (by decide +kernel) session sealing
      rfl
    obtain rfl : (⟨listGroups, ofClient, clientNonce, 1000, .waiting, none⟩ : ConnectRun) = r := by
      refine Option.some.inj (Eq.trans ?_ hr)
      decide +kernel
    refine ⟨fun text signature hchecked hverify => ?_, by decide +kernel⟩
    have htext : signedText = text := by
      refine congrArg Prod.fst (Option.some.inj (Eq.trans ?_ hchecked) : (signedText, World.signature) = _)
      decide +kernel
    rw [← htext]
    decide +kernel
  · exact ⟨by decide, by decide, by decide, by decide, by decide, by decide, by decide, by decide +kernel,
      by decide +kernel, by decide +kernel, by decide +kernel⟩

end Example

end World

end TorrentAtlas
