import TorrentAtlas.Library.Machine
import TorrentAtlas.SecureChannel
import TorrentAtlas.TrackerClient

/-!
# Connections to the tracker

A world holds every run of `callTracker` and every connection the tracker has
accepted. The network belongs to the attacker: each step hands an arbitrary frame
to one waiting party, so dropping, altering, replaying, reflecting and injecting
frames are all schedules of the same steps. The logs record what the parties
signed, hashed and encrypted; assumptions on the cryptography speak about them.
-/
namespace TorrentAtlas

open Encoding Crypto SecureChannel

/-- Where a run of `callTracker` stands. -/
inductive ConnectPhase
  | waiting
  | failed
  /-- The handshake is verified and the request is sealed and sent. -/
  | established (session : Session) (sealing : Sealing)
  deriving DecidableEq, Repr

structure ConnectRun where
  request : Bytes
  ephemeral : KeyPair
  nonce : Bytes
  started : Int
  phase : ConnectPhase
  /-- What the one response frame decrypted to, once it has been read. -/
  response : Option (Option Bytes)
  deriving DecidableEq, Repr

def ConnectRun.hello (r : ConnectRun) : Bytes := connectHello r.started r.ephemeral r.nonce

/-- A connection for which the tracker has signed a transcript. -/
structure AcceptRun where
  offer : Offer
  /-- The session key, once `accept` has returned a channel. -/
  key : Option Bytes
  /-- The handler reads one frame per connection. -/
  served : Bool
  deriving DecidableEq, Repr

/-- A request that `TrackerService::handle` has run, with the frame it came in. -/
structure Applied where
  connection : Nat
  frame : Bytes
  request : Bytes
  deriving DecidableEq, Repr

structure World where
  connects : List ConnectRun
  accepts : List AcceptRun
  state : TrackerState
  applied : List Applied
  /-- Every encryption made so far, by anyone. -/
  sealings : List Sealing
  /-- Every input the parties have hashed into a session key. -/
  hashed : List Bytes

/-- One step of a party, with the frame the attacker hands it and what it draws. -/
inductive Action
  | connect (request : Bytes) (ephemeral : Option KeyPair) (nonce : Bytes) (now : Int)
  | connectReply (i : Nat) (reply : Bytes) (now : Int) (random : Bytes)
  | connectResponse (i : Nat) (frame : Bytes)
  /-- `sent` is what `sendFrame` returned for the reply, which may have gone out in either case. -/
  | accept (hello : Bytes) (ephemeral : Option KeyPair) (nonce : Bytes) (parsed now : Int) (sent : Bool)
  | acceptRequest (j : Nat) (frame : Bytes) (context : ApplyContext) (random : Bytes)
  /-- An encryption by somebody else. -/
  | foreign (sealing : Sealing)

namespace World

def init : World := ⟨[], [], TrackerState.empty, [], [], []⟩

variable (ssl : OpenSsl) (identity : KeyPair)

/-- The SHA-256 input of `sessionKey`. -/
def keyInput (ephemeral : KeyPair) (peerPublic signedText : Bytes) : Bytes :=
  x25519SharedSecret ssl ephemeral.privateKey peerPublic ++ signedText

/-- The tracker's key as a client finds it in the fields it has verified. -/
def serverPublic (session : Session) : Bytes :=
  (fromHex ((session.serverFields.splitOn (chr '|')).getD 0 [])).getD []

/-- A step leaves a new world and the frame it sends, if any. -/
def step (w : World) : Action → World × Option Bytes
  | .connect request ephemeral nonce now =>
    match ephemeral with
    | none => (w, none)
    | some ephemeral =>
      if nonce.length ≠ 16 then (w, none)
      else
        let r : ConnectRun := ⟨request, ephemeral, nonce, now, .waiting, none⟩
        ({ w with connects := w.connects ++ [r] }, some r.hello)
  | .connectReply i reply now random =>
    match w.connects[i]? with
    | none => (w, none)
    | some r =>
      match r.phase with
      | .waiting =>
        match connectFinish ssl identity.publicKey now r.ephemeral r.hello reply with
        | none => ({ w with connects := w.connects.set i { r with phase := .failed } }, none)
        | some session =>
          let sealing : Sealing := ⟨random, session.key, CLIENT_LABEL, r.request⟩
          ({ w with
              connects := w.connects.set i { r with phase := .established session sealing }
              sealings := w.sealings ++ [sealing]
              hashed := w.hashed ++ [keyInput ssl r.ephemeral (serverPublic session) session.signedText] },
            some (sealFrame ssl random session.key CLIENT_LABEL r.request))
      | _ => (w, none)
  | .connectResponse i frame =>
    match w.connects[i]? with
    | none => (w, none)
    | some r =>
      match r.phase, r.response with
      | .established session _, none =>
        let r' := { r with response := some (receive ssl session.key TRACKER_LABEL frame) }
        ({ w with connects := w.connects.set i r' }, none)
      | _, _ => (w, none)
  | .accept hello ephemeral nonce parsed now sent =>
    match acceptHello ssl identity.privateKey parsed now ephemeral nonce hello with
    | none => (w, none)
    | some offer =>
      if sent then
        ({ w with
            accepts := w.accepts ++ [⟨offer, acceptFinish ssl offer, false⟩]
            hashed := w.hashed ++ [keyInput ssl offer.ephemeral offer.clientPublic offer.signedText] },
          some offer.reply)
      else ({ w with accepts := w.accepts ++ [⟨offer, none, false⟩] }, some offer.reply)
  | .acceptRequest j frame context random =>
    match w.accepts[j]? with
    | none => (w, none)
    | some a =>
      match a.key, a.served with
      | some key, false =>
        let accepts := w.accepts.set j { a with served := true }
        match receive ssl key CLIENT_LABEL frame with
        | none => ({ w with accepts }, none)
        | some request =>
          let result := TrackerService.handle ssl w.state context request
          ({ w with
              accepts
              state := result.1
              applied := w.applied ++ [⟨j, frame, request⟩]
              sealings := w.sealings ++ [⟨random, key, TRACKER_LABEL, result.2⟩] },
            some (sealFrame ssl random key TRACKER_LABEL result.2))
      | _, _ => (w, none)
  | .foreign sealing => ({ w with sealings := w.sealings ++ [sealing] }, none)

/-- Everything a step can do to a world, with the checks it has made. -/
inductive Change (w : World) : Action → World → Prop
  | idle (action : Action) : Change w action w
  | started (request : Bytes) (ephemeral : KeyPair) (nonce : Bytes) (now : Int) (hnonce : nonce.length = 16) :
      Change w (.connect request (some ephemeral) nonce now)
        { w with connects := w.connects ++ [⟨request, ephemeral, nonce, now, .waiting, none⟩] }
  | refused (i : Nat) (reply : Bytes) (now : Int) (random : Bytes) (r : ConnectRun) (hr : w.connects[i]? = some r) :
      Change w (.connectReply i reply now random)
        { w with connects := w.connects.set i { r with phase := .failed } }
  | verified (i : Nat) (reply : Bytes) (now : Int) (random : Bytes) (r : ConnectRun) (session : Session)
      (hr : w.connects[i]? = some r)
      (hsession : connectFinish ssl identity.publicKey now r.ephemeral r.hello reply = some session) :
      Change w (.connectReply i reply now random)
        { w with
          connects := w.connects.set i
            { r with phase := .established session ⟨random, session.key, CLIENT_LABEL, r.request⟩ }
          sealings := w.sealings ++ [⟨random, session.key, CLIENT_LABEL, r.request⟩]
          hashed := w.hashed ++ [keyInput ssl r.ephemeral (serverPublic session) session.signedText] }
  | answered (i : Nat) (frame : Bytes) (r : ConnectRun) (response : Option (Option Bytes))
      (hr : w.connects[i]? = some r) :
      Change w (.connectResponse i frame) { w with connects := w.connects.set i { r with response } }
  | offered (hello : Bytes) (nonce : Bytes) (parsed now : Int) (offer : Offer)
      (hoffer : acceptHello ssl identity.privateKey parsed now (some offer.ephemeral) nonce hello = some offer) :
      Change w (.accept hello (some offer.ephemeral) nonce parsed now true)
        { w with
          accepts := w.accepts ++ [⟨offer, acceptFinish ssl offer, false⟩]
          hashed := w.hashed ++ [keyInput ssl offer.ephemeral offer.clientPublic offer.signedText] }
  | unsent (hello : Bytes) (nonce : Bytes) (parsed now : Int) (offer : Offer)
      (hoffer : acceptHello ssl identity.privateKey parsed now (some offer.ephemeral) nonce hello = some offer) :
      Change w (.accept hello (some offer.ephemeral) nonce parsed now false)
        { w with accepts := w.accepts ++ [⟨offer, none, false⟩] }
  | dropped (j : Nat) (frame : Bytes) (context : ApplyContext) (random : Bytes) (a : AcceptRun)
      (ha : w.accepts[j]? = some a) :
      Change w (.acceptRequest j frame context random)
        { w with accepts := w.accepts.set j { a with served := true } }
  | served (j : Nat) (frame : Bytes) (context : ApplyContext) (random : Bytes) (a : AcceptRun) (key request : Bytes)
      (ha : w.accepts[j]? = some a) (hkey : a.key = some key) (hserved : a.served = false)
      (hreceive : receive ssl key CLIENT_LABEL frame = some request) :
      Change w (.acceptRequest j frame context random)
        { w with
          accepts := w.accepts.set j { a with served := true }
          state := (TrackerService.handle ssl w.state context request).1
          applied := w.applied ++ [⟨j, frame, request⟩]
          sealings := w.sealings ++
            [⟨random, key, TRACKER_LABEL, (TrackerService.handle ssl w.state context request).2⟩] }
  | foreign (sealing : Sealing) : Change w (.foreign sealing) { w with sealings := w.sealings ++ [sealing] }

theorem step_change (w : World) (action : Action) : Change ssl identity w action (step ssl identity w action).1 := by
  cases action with
  | connect request ephemeral nonce now =>
    cases ephemeral with
    | none => exact .idle _
    | some ephemeral =>
      simp only [step]
      split
      · exact .idle _
      · next hnonce => exact .started request ephemeral nonce now (by simpa using hnonce)
  | connectReply i reply now random =>
    simp only [step]
    split
    · exact .idle _
    · next r hr =>
      split
      · split
        · exact .refused i reply now random r hr
        · next session hsession => exact .verified i reply now random r session hr hsession
      · exact .idle _
  | connectResponse i frame =>
    simp only [step]
    split
    · exact .idle _
    · next r hr =>
      split
      · exact .answered i frame r _ hr
      · exact .idle _
  | accept hello ephemeral nonce parsed now sent =>
    simp only [step]
    split
    · exact .idle _
    · next offer hoffer =>
      obtain ⟨-, rfl, -⟩ := acceptHello_eq_some hoffer
      cases sent with
      | true => exact .offered hello nonce parsed now offer hoffer
      | false => exact .unsent hello nonce parsed now offer hoffer
  | acceptRequest j frame context random =>
    simp only [step]
    split
    · exact .idle _
    · next a ha =>
      split
      · next key hkey hserved =>
        split
        · exact .dropped j frame context random a ha
        · next request hreceive => exact .served j frame context random a key request ha hkey hserved hreceive
      · exact .idle _
  | foreign sealing => exact .foreign sealing

end World

end TorrentAtlas
