import TorrentAtlas.FrameCap
import TorrentAtlas.TrackerLog
import TorrentAtlas.Transport

/-!
# One call to the tracker (`common/net/secure_channel.cpp`, `client/tracker_client.cpp`, `tracker/main.cpp`)

The client's call and the tracker's handler of the connection as whole programs on their
sockets. The kernel may cut or fail any of their transfers; nobody else writes to the
connection.
-/
namespace TorrentAtlas

open Encoding Crypto

namespace SecureChannel

variable (ssl : OpenSsl)

/-- What `connect` draws and reads from the clock, and what `seal` draws after it. -/
structure ConnectDraws where
  ephemeral : Option KeyPair
  nonce : Bytes
  started : Int
  finished : Int
  random : Bytes

/-- The same of `accept`. -/
structure AcceptDraws where
  ephemeral : Option KeyPair
  nonce : Bytes
  parsed : Int
  replied : Int
  random : Bytes

/-- The end of `connect` and of `accept`. -/
def Channel.of (client : Bool) (key : Bytes) : Option Channel :=
  if h : key.length = 32 then some ⟨key, client, h⟩ else none

def connect (trackerPublicKey : Bytes) (draws : ConnectDraws) : Talk Bytes (Option Channel) :=
  match draws.ephemeral with
  | none => pure none
  | some ephemeral =>
    if draws.nonce.length ≠ 16 then pure none
    else do
      let hello := connectHello draws.started ephemeral draws.nonce
      if !(← Talk.say hello) then pure none
      else
        match ← Talk.hear with
        | none => pure none
        | some reply =>
          let session := connectFinish ssl trackerPublicKey draws.finished ephemeral hello reply
          pure (session.bind (fun session => Channel.of true session.key))

def accept (identityPrivateKey : Bytes) (draws : AcceptDraws) : Talk Bytes (Option Channel) := do
  match ← Talk.hear with
  | none => pure none
  | some hello =>
    match acceptHello ssl identityPrivateKey draws.parsed draws.replied draws.ephemeral draws.nonce hello with
    | none => pure none
    | some offer =>
      if !(← Talk.say offer.reply) then pure none
      else pure ((acceptFinish ssl offer).bind (Channel.of false))

namespace Channel

variable (ch : Channel)

/-- `send` on the channel's socket. -/
def say (random plain : Bytes) : Talk Bytes Bool := Talk.say (ch.sealed ssl random plain)

/-- `receive` on the channel's socket; `none` is false. -/
def hear : Talk Bytes (Option Bytes) := do
  match ← Talk.hear with
  | none => pure none
  | some frame => pure (SecureChannel.receive ssl ch.key ch.receiveLabel frame)

/-- A request and its reply. -/
def exchange (random request : Bytes) : Talk Bytes (Option Bytes) := do
  if !(← ch.say ssl random request) then pure none
  else ch.hear ssl

end Channel

/-- `connected` says whether `Socket::connect` succeeded; `none` is false. -/
def callTracker (connected : Bool) (trackerPublicKey : Bytes) (draws : ConnectDraws) (request : Bytes) :
    Talk Bytes (Option Bytes) :=
  if !connected then pure none
  else do
    match ← connect ssl trackerPublicKey draws with
    | none => pure none
    | some channel => channel.exchange ssl draws.random request

namespace Channel

variable {ssl : OpenSsl} {ch : Channel} {random plain : Bytes}

theorem hear_careful (ch : Channel) : (ch.hear ssl).Careful (· = none) := ⟨⟨none, rfl, rfl⟩, fun _ => trivial⟩

theorem of_other {key key' : Bytes} {ch ch' : Channel} (h : of true key = some ch)
    (h' : of false key' = some ch') (hkey : key = key') : ch' = ch.other := by
  unfold Channel.of at h h'
  split at h
  · split at h'
    · obtain rfl := Option.some.inj h
      obtain rfl := Option.some.inj h'
      subst hkey
      rfl
    · simp at h'
  · simp at h

/-- What the other end makes of a frame that this end has sealed, or failed to. -/
theorem receive_sealed_cases
    (hopens : ∀ k n a p c t, ssl.gcmSeal k n a p = some (c, t) → ssl.gcmOpen k n a c t = some p)
    (ch : Channel) (random plain : Bytes) :
    (ch.Encrypts ssl random plain ∧
      SecureChannel.receive ssl ch.key ch.sendLabel (ch.sealed ssl random plain) = some plain) ∨
    (¬ ch.Encrypts ssl random plain ∧
      SecureChannel.receive ssl ch.key ch.sendLabel (ch.sealed ssl random plain) = none) := by
  by_cases h : ch.Encrypts ssl random plain
  · obtain ⟨m, hm⟩ := Channel.encrypts_iff.mp h
    refine Or.inl ⟨h, ?_⟩
    rw [Channel.sealed_of_encrypt hm]
    exact Channel.receive_sealed hopens hm
  · refine Or.inr ⟨h, ?_⟩
    rw [Channel.sealed_of_failure h]
    rfl

/-- A message that can be sealed and whose frame is not too long. -/
def Passes (ssl : OpenSsl) (ch : Channel) (random plain : Bytes) : Prop :=
  ch.Encrypts ssl random plain ∧ 28 + plain.length ≤ MAX_FRAME

/-- What becomes of a message on a channel: it is read, or an unreadable frame arrives, or none. -/
theorem passes_cases
    (hopens : ∀ k n a p c t, ssl.gcmSeal k n a p = some (c, t) → ssl.gcmOpen k n a c t = some p)
    (ch : Channel) (random plain : Bytes) :
    (ch.Passes ssl random plain ∧ Socket.transport.fits (ch.sealed ssl random plain) = true ∧
      SecureChannel.receive ssl ch.key ch.sendLabel (ch.sealed ssl random plain) = some plain) ∨
    (¬ ch.Passes ssl random plain ∧ (Socket.transport.fits (ch.sealed ssl random plain) = false ∨
      SecureChannel.receive ssl ch.key ch.sendLabel (ch.sealed ssl random plain) = none)) := by
  rcases receive_sealed_cases hopens ch random plain with ⟨hencrypts, h⟩ | ⟨hencrypts, h⟩
  · by_cases hsize : 28 + plain.length ≤ MAX_FRAME
    · refine Or.inl ⟨⟨hencrypts, hsize⟩, ?_, h⟩
      exact decide_eq_true (by rw [length_sealed hencrypts]; exact hsize)
    · refine Or.inr ⟨fun hpasses => hsize hpasses.2, Or.inl ?_⟩
      exact decide_eq_false (by rw [length_sealed hencrypts]; exact hsize)
  · exact Or.inr ⟨fun hpasses => hencrypts hpasses.1, Or.inr h⟩

end Channel

end SecureChannel

open SecureChannel

/-- `TrackerClient::request`. -/
def TrackerClient.call (ssl : OpenSsl) (connected : Bool) (trackerPublicKey : Bytes) (draws : ConnectDraws)
    (session : UInt64) (command : Bytes) : Talk Bytes Answer := do
  let reply ← callTracker ssl connected trackerPublicKey draws (message session command)
  pure (request session reply)

/-- The handler from the request on. -/
def TrackerService.serveRequest (ssl : OpenSsl) (channel : Channel) (random : Bytes) (s : TrackerState)
    (context : ApplyContext) (client opened : Bytes) : Talk Bytes (TrackerState × List Bytes) := do
  match ← channel.hear ssl with
  | none => pure (s, [opened, TrackerLog.error (client ++ lit ": no request received")])
  | some request =>
    let ((s, reply), line) := handleLogged ssl s context request client
    if !(← channel.say ssl random reply) then
      pure (s, [opened, line, TrackerLog.error (client ++ lit ": could not send the reply")])
    else pure (s, [opened, line])

/-- The handler of the tracker's server: the state it leaves and the lines it logs. -/
def TrackerService.connection (ssl : OpenSsl) (identityPrivateKey : Bytes) (draws : AcceptDraws) (s : TrackerState)
    (context : ApplyContext) (client : Bytes) : Talk Bytes (TrackerState × List Bytes) := do
  let opened := TrackerLog.info (lit "Connection from " ++ client)
  match ← accept ssl identityPrivateKey draws with
  | none => pure (s, [opened, TrackerLog.error (client ++ lit ": secure handshake failed")])
  | some channel => serveRequest ssl channel draws.random s context client opened

section Call

variable {ssl : OpenSsl} {identity : KeyPair} {client : ConnectDraws} {tracker : AcceptDraws} {s : TrackerState}
  {context : ApplyContext} {address command : Bytes} {session : UInt64} {connected : Bool}

theorem split_reply (now : Int) (p : KeyPair) (nonce signature : Bytes) :
    split (lit "HELLO|" ++ helloFields now p nonce ++ lit "|" ++ toHex signature) (chr '|') =
      [lit "HELLO", toHex p.publicKey, toHex nonce, decimalInt now, toHex signature] := by
  have hcut : lit "HELLO|" ++ helloFields now p nonce ++ lit "|" ++ toHex signature =
      lit "HELLO" ++ chr '|' :: (helloFields now p nonce ++ chr '|' :: toHex signature) := by
    simp [lit, chr]
  rw [split_eq, hcut, Delimited.splitOn_cons_field _ (by decide), List.splitOn_append_cons_self,
    splitOn_helloFields, List.splitOn_eq_singleton (not_mem_toHex (by decide) _)]
  rfl

/-- A client that accepts the answer to its own hello has the tracker's key. -/
theorem connectFinish_reply {trackerPublicKey nonce clientNonce : Bytes} {parsed replied now started : Int}
    {p q : KeyPair} {o : Offer} {found : Session} {key : Bytes}
    (ho : acceptHello ssl identity.privateKey parsed replied (some q) nonce (connectHello started p clientNonce) =
      some o)
    (hkey : acceptFinish ssl o = some key)
    (hfound : connectFinish ssl trackerPublicKey now p (connectHello started p clientNonce) o.reply = some found)
    (hx : Commutes ssl p q) : found.key = key := by
  obtain ⟨hhello, hephemeral, -, hserver, hsigned, -, -⟩ := acceptHello_eq_some ho
  obtain rfl : q = o.ephemeral := Option.some.inj hephemeral
  obtain ⟨signature, hchecked, -⟩ := checkedSignature_of_connectFinish hfound
  have htext : o.signedText = found.signedText := by
    have hsplit := split_reply replied o.ephemeral o.nonce o.signature
    rw [← hserver, ← Offer.reply] at hsplit
    rw [checkedSignature, hsplit] at hchecked
    simp only [List.getD_cons_succ, List.getD_cons_zero, fromHex_toHex, Option.map_some, Option.some.injEq,
      Prod.mk.injEq] at hchecked
    rw [hsigned, hhello, ← hchecked.1, hserver]
    rfl
  have hoffer : OfferOk ssl o (some key) :=
    offerOk_of_acceptHello ho (fun k hk => by rw [← Option.some.inj hk]; exact hkey)
  obtain ⟨-, -, hsame⟩ := agreement hfound hoffer htext hx
  exact (hsame key rfl).symm

theorem connect_careful (draws : ConnectDraws) : (connect ssl identity.publicKey draws).Careful (· = none) := by
  unfold connect
  split
  · trivial
  · split
    · trivial
    · exact ⟨⟨none, rfl, rfl⟩, ⟨none, rfl, rfl⟩, fun reply => trivial⟩

theorem accept_careful (draws : AcceptDraws) : (accept ssl identity.privateKey draws).Careful (· = none) := by
  unfold accept
  rw [Talk.hear_bind]
  refine ⟨⟨none, rfl, rfl⟩, fun hello => ?_⟩
  dsimp only
  split
  · trivial
  · exact ⟨⟨none, rfl, rfl⟩, trivial⟩

theorem callTracker_careful (draws : ConnectDraws) (request : Bytes) :
    (callTracker ssl connected identity.publicKey draws request).Careful (· = none) := by
  unfold callTracker
  split
  · trivial
  · refine (connect_careful draws).bind (fun _ ha => ⟨none, rfl, by subst ha; rfl⟩) (fun a => ?_)
    cases a with
    | none => trivial
    | some channel => exact ⟨⟨none, rfl, rfl⟩, channel.hear_careful⟩

theorem call_careful (draws : ConnectDraws) :
    (TrackerClient.call ssl connected identity.publicKey draws session command).Careful (fun _ => True) :=
  (callTracker_careful draws _).bind (fun _ _ => ⟨_, trivial, rfl⟩) (fun _ => trivial)

theorem connection_careful (draws : AcceptDraws) :
    (TrackerService.connection ssl identity.privateKey draws s context address).Careful (fun _ => True) := by
  refine (accept_careful draws).bind (fun _ ha => ⟨_, trivial, by subst ha; rfl⟩) (fun a => ?_)
  cases a with
  | none => trivial
  | some channel =>
    refine (channel.hear_careful).bind (fun _ ha => ⟨_, trivial, by subst ha; rfl⟩) (fun a => ?_)
    cases a with
    | none => trivial
    | some request => exact ⟨⟨_, trivial, rfl⟩, trivial⟩

/-- What the client is told and what has happened at the tracker agree, as far as the client can know. -/
def Agrees (ssl : OpenSsl) (s : TrackerState) (context : ApplyContext) (session : UInt64) (command : Bytes)
    (answer : TrackerClient.Answer) (served : TrackerState × List Bytes) : Prop :=
  let result := s.apply ssl session command context
  (answer = ⟨true, result.2.response, result.2.session⟩ ∧ served.1 = result.1) ∨
    (answer = ⟨false, lit "ERR tracker unavailable", session⟩ ∧ (served.1 = s ∨ served.1 = result.1))

theorem agrees_unavailable (result : TrackerState × List Bytes) (h : result.1 = s ∨
    result.1 = (s.apply ssl session command context).1) : Agrees ssl s context session command
      (TrackerClient.request session none) result := Or.inr ⟨rfl, h⟩

/-- After the handshake, one message each way. -/
theorem ends_request (hopens : ∀ k n a p c t, ssl.gcmSeal k n a p = some (c, t) → ssl.gcmOpen k n a c t = some p)
    (ch : Channel) (random random' opened : Bytes) :
    Talk.Ends Socket.transport.fits (Agrees ssl s context session command)
      (ch.exchange ssl random (TrackerClient.message session command) >>= fun reply =>
        pure (TrackerClient.request session reply))
      (TrackerService.serveRequest ssl ch.other random' s context address opened) := by
  refine ⟨fun _ => ?_, fun ok => ?_⟩
  · simp only [Talk.bind, Channel.other_key, Channel.other_receiveLabel]
    rcases Channel.receive_sealed_cases hopens ch random (TrackerClient.message session command) with ⟨-, h⟩ | ⟨-, h⟩
    · have hhandled := TrackerService.handleLogged_handle ssl s context (TrackerClient.message session command) address
      rw [TrackerService.handle_message] at hhandled
      have happlied := congrArg Prod.fst hhandled
      have hreply := Channel.receive_sealed_cases hopens ch.other random'
        (TrackerService.handleLogged ssl s context (TrackerClient.message session command) address).1.2
      rw [Channel.other_key, Channel.other_sendLabel] at hreply
      simp only [h]
      refine ⟨fun _ => ?_, fun ok => ?_⟩
      · simp only [Talk.bind]
        rcases hreply with ⟨-, h⟩ | ⟨-, h⟩
        · rw [h, congrArg Prod.snd hhandled]
          exact Or.inl ⟨TrackerClient.request_reply _ _ _, happlied⟩
        · rw [h]
          exact agrees_unavailable _ (Or.inr happlied)
      · cases ok
        · exact agrees_unavailable _ (Or.inr happlied)
        · exact agrees_unavailable _ (Or.inr happlied)
    · simp only [h]
      exact agrees_unavailable _ (Or.inl rfl)
  · cases ok
    · exact agrees_unavailable _ (Or.inl rfl)
    · exact agrees_unavailable _ (Or.inl rfl)

/-- Whatever the kernel does to the transfers of a call, its two ends agree. -/
theorem ends_call
    (hopens : ∀ k n a p c t, ssl.gcmSeal k n a p = some (c, t) → ssl.gcmOpen k n a c t = some p)
    (hx : ∀ p q, client.ephemeral = some p → tracker.ephemeral = some q → Commutes ssl p q) :
    Talk.Ends Socket.transport.fits (Agrees ssl s context session command)
      (TrackerClient.call ssl connected identity.publicKey client session command)
      (TrackerService.connection ssl identity.privateKey tracker s context address) := by
  unfold TrackerClient.call callTracker connect
  split
  · exact agrees_unavailable _ (Or.inl rfl)
  · split
    · exact agrees_unavailable _ (Or.inl rfl)
    · next p hp =>
      split
      · exact agrees_unavailable _ (Or.inl rfl)
      · refine ⟨fun _ => ?_, fun ok => ?_⟩
        · simp only [Talk.bind]
          cases ho : acceptHello ssl identity.privateKey tracker.parsed tracker.replied tracker.ephemeral tracker.nonce
              (connectHello client.started p client.nonce) with
          | none => exact agrees_unavailable _ (Or.inl rfl)
          | some offer =>
            refine ⟨fun _ => ?_, fun ok => ?_⟩
            · simp only [Talk.bind]
              cases hclient : (connectFinish ssl identity.publicKey client.finished p
                  (connectHello client.started p client.nonce) offer.reply).bind
                    (fun found => Channel.of true found.key) with
              | none =>
                cases (acceptFinish ssl offer).bind (Channel.of false) with
                | none => exact agrees_unavailable _ (Or.inl rfl)
                | some ch' => exact agrees_unavailable _ (Or.inl rfl)
              | some ch =>
                cases htracker : (acceptFinish ssl offer).bind (Channel.of false) with
                | none =>
                  intro ok
                  cases ok
                  · exact agrees_unavailable _ (Or.inl rfl)
                  · exact agrees_unavailable _ (Or.inl rfl)
                | some ch' =>
                  obtain ⟨found, hfound, hch⟩ := Option.bind_eq_some_iff.mp hclient
                  obtain ⟨key, hkey, hch'⟩ := Option.bind_eq_some_iff.mp htracker
                  have hq := (acceptHello_eq_some ho).2.1
                  rw [hq] at ho
                  obtain rfl : ch' = ch.other :=
                    Channel.of_other hch hch' (connectFinish_reply ho hkey hfound (hx p _ hp hq))
                  exact ends_request hopens ch _ _ _
            · cases ok
              · exact agrees_unavailable _ (Or.inl rfl)
              · simp only [Talk.bind]
                cases (acceptFinish ssl offer).bind (Channel.of false) with
                | none => exact agrees_unavailable _ (Or.inl rfl)
                | some ch' => exact agrees_unavailable _ (Or.inl rfl)
        · cases ok
          · exact agrees_unavailable _ (Or.inl rfl)
          · exact agrees_unavailable _ (Or.inl rfl)

/-- What a call comes to when no transfer fails. -/
structure Settled (ssl : OpenSsl) (ch : Channel) (random random' : Bytes) (s : TrackerState) (context : ApplyContext)
    (session : UInt64) (command address opened : Bytes) (answer : TrackerClient.Answer)
    (served : TrackerState × List Bytes) : Prop where
  answered : ch.Passes ssl random (TrackerClient.message session command) →
    ch.other.Passes ssl random' (TrackerService.handle ssl s context (TrackerClient.message session command)).2 →
    answer = ⟨true, (s.apply ssl session command context).2.response, (s.apply ssl session command context).2.session⟩ ∧
      served = ((s.apply ssl session command context).1,
        [opened, (TrackerService.handleLogged ssl s context (TrackerClient.message session command) address).2])
  unanswered : ch.Passes ssl random (TrackerClient.message session command) →
    ¬ ch.other.Passes ssl random' (TrackerService.handle ssl s context (TrackerClient.message session command)).2 →
    answer = ⟨false, lit "ERR tracker unavailable", session⟩ ∧ served.1 = (s.apply ssl session command context).1
  unasked : ¬ ch.Passes ssl random (TrackerClient.message session command) →
    answer = ⟨false, lit "ERR tracker unavailable", session⟩ ∧
      served = (s, [opened, TrackerLog.error (address ++ lit ": no request received")])

theorem settle_request (hopens : ∀ k n a p c t, ssl.gcmSeal k n a p = some (c, t) → ssl.gcmOpen k n a c t = some p)
    (ch : Channel) (random random' opened : Bytes) : ∃ answer served,
      Talk.settle Socket.transport.fits (ch.exchange ssl random (TrackerClient.message session command) >>= fun reply =>
        pure (TrackerClient.request session reply))
        (TrackerService.serveRequest ssl ch.other random' s context address opened) = some (answer, served) ∧
      Settled ssl ch random random' s context session command address opened answer served := by
  have hlogged := TrackerService.handleLogged_handle ssl s context (TrackerClient.message session command) address
  have hhandle := TrackerService.handle_message ssl s context session command
  have hrequest := Channel.passes_cases hopens ch random (TrackerClient.message session command)
  have hreply := Channel.passes_cases hopens ch.other random'
    (TrackerService.handle ssl s context (TrackerClient.message session command)).2
  rw [Channel.other_key, Channel.other_sendLabel] at hreply
  unfold Channel.exchange TrackerService.serveRequest Channel.say Channel.hear
  simp only [Talk.say_bind, Talk.hear_bind, Talk.send_bind, Talk.receive_bind, Talk.settle, Talk.pure_eq, Talk.done_bind,
    Channel.other_key, Channel.other_receiveLabel]
  have hanswer : TrackerClient.request session
      (some (TrackerService.handle ssl s context (TrackerClient.message session command)).2) =
        ⟨true, (s.apply ssl session command context).2.response, (s.apply ssl session command context).2.session⟩ := by
    rw [hhandle, TrackerClient.request_reply]
  obtain ⟨line, hline⟩ : ∃ line, (TrackerService.handleLogged ssl s context (TrackerClient.message session command)
    address).2 = line := ⟨_, rfl⟩
  have happlied : (TrackerService.handle ssl s context (TrackerClient.message session command)).1 =
      (s.apply ssl session command context).1 := by rw [hhandle]
  rcases hrequest with ⟨hpasses, hfits, hread⟩ | ⟨hpasses, hlost⟩
  · simp only [hfits, hread, if_true, hlogged]
    rcases hreply with ⟨hpasses', hfits', hread'⟩ | ⟨hpasses', hlost'⟩
    · refine ⟨_, _, ?_, ⟨fun _ _ => ⟨rfl, rfl⟩, fun _ hno => absurd hpasses' hno, fun hno => absurd hpasses hno⟩⟩
      simp [Talk.settle, Talk.finish, hfits', hread', hanswer, happlied]
    · cases hfits' : Socket.transport.fits (ch.other.sealed ssl random'
          (TrackerService.handle ssl s context (TrackerClient.message session command)).2) with
      | false =>
        refine ⟨_, (_, [opened, line, TrackerLog.error (address ++ lit ": could not send the reply")]), ?_,
          ⟨fun _ h => absurd h hpasses', fun _ _ => ⟨rfl, happlied⟩, fun hno => absurd hpasses hno⟩⟩
        simp [Talk.settle, Talk.finish, hfits', hline, TrackerClient.request]
      | true =>
        have hread' := hlost'.resolve_left (by simp [hfits'])
        refine ⟨_, (_, [opened, line]), ?_,
          ⟨fun _ h => absurd h hpasses', fun _ _ => ⟨rfl, happlied⟩, fun hno => absurd hpasses hno⟩⟩
        simp [Talk.settle, Talk.finish, hfits', hread', hline, TrackerClient.request]
  · refine ⟨_, _, ?_, ⟨fun h => absurd h hpasses, fun h => absurd h hpasses, fun _ => ⟨rfl, rfl⟩⟩⟩
    cases hfits : Socket.transport.fits (ch.sealed ssl random (TrackerClient.message session command)) with
    | false => simp [Talk.finish, TrackerClient.request]
    | true => simp [Talk.settle, Talk.finish, hlost.resolve_left (by simp [hfits]), TrackerClient.request]

theorem length_helloFields_le {p : KeyPair} {nonce : Bytes} {now : Int} (hpublic : p.publicKey.length = 32)
    (hnonce : nonce.length = 16) (h₀ : 0 ≤ now) (h₁ : now ≤ 2 ^ 62 + 300) : (helloFields now p nonce).length ≤ 118 := by
  have hdecimal : decimalInt now = decimal now.toNat := by
    rw [decimalInt, if_neg (by omega)]
    congr 1
    omega
  have hlength := length_decimal_le (show 0 < 20 by decide) (show now.toNat < 10 ^ 20 by omega)
  have hbar : (lit "|").length = 1 := rfl
  simp only [helloFields, List.length_append, length_toHex, hpublic, hnonce, hbar, hdecimal]
  omega

theorem length_signature {parsed now : Int} {ephemeral : Option KeyPair} {nonce hello : Bytes} {o : Offer}
    (h : acceptHello ssl identity.privateKey parsed now ephemeral nonce hello = some o) : o.signature.length ≤ 64 := by
  unfold acceptHello at h
  split at h
  · simp at h
  · split at h
    · simp at h
    · dsimp only at h
      split at h
      · simp at h
      · split at h
        · simp at h
        · obtain rfl := Option.some.inj h
          dsimp only
          unfold ed25519Sign
          split
          · simp
          · cases hsign : ssl.Ed25519Sign identity.privateKey _ with
            | none => simp
            | some signature => exact (ssl.Ed25519Sign_length _ _ _ hsign).le

/-- An undisturbed handshake is settled with one channel at both ends. -/
theorem settle_handshake {p q : KeyPair} (hp : client.ephemeral = some p) (hq : tracker.ephemeral = some q)
    (h : World.Undisturbed ssl identity p q client.nonce tracker.nonce client.started tracker.parsed tracker.replied
      client.finished) :
    ∃ o, acceptHello ssl identity.privateKey tracker.parsed tracker.replied (some q) tracker.nonce
        (connectHello client.started p client.nonce) = some o ∧
      ∃ ch : Channel, acceptFinish ssl o = some ch.key ∧ ch.client = true ∧
        Talk.settle Socket.transport.fits
          (TrackerClient.call ssl true identity.publicKey client session command)
          (TrackerService.connection ssl identity.privateKey tracker s context address) =
        Talk.settle Socket.transport.fits
          (ch.exchange ssl client.random (TrackerClient.message session command) >>= fun reply =>
            pure (TrackerClient.request session reply))
          (TrackerService.serveRequest ssl ch.other tracker.random s context address
            (TrackerLog.info (lit "Connection from " ++ address))) := by
  obtain ⟨o, key, ho, hkey, hfound⟩ := h.succeeds
  have hlength : key.length = 32 := by
    have hfinish := hkey
    unfold acceptFinish at hfinish
    dsimp only at hfinish
    split at hfinish
    · simp at hfinish
    · next hlen => rw [← Option.some.inj hfinish]; exact not_not.mp hlen
  have hof : ∀ end_ : Bool, Channel.of end_ key = some ⟨key, end_, hlength⟩ := fun _ => dif_pos hlength
  have hhello : Socket.transport.fits (connectHello client.started p client.nonce) = true := by
    have hfields := length_helloFields_le h.hclientPublic h.hclientNonce h.hclocks.1 (by
      have := abs_le.mp h.hhello
      have := h.hclocks
      omega)
    refine decide_eq_true ?_
    have hlit : (lit "HELLO|").length = 6 := rfl
    rw [connectHello, List.length_append]
    simp only [MAX_FRAME]
    omega
  have hreply : Socket.transport.fits o.reply = true := by
    obtain ⟨-, hephemeral, hnonce, hserver, -⟩ := acceptHello_eq_some ho
    have hfields := length_helloFields_le h.htrackerPublic h.htrackerNonce h.hclocks.2.1 (by
      have := abs_le.mp h.hreply
      have := h.hclocks
      omega)
    rw [Option.some.inj hephemeral, ← hnonce, ← hserver] at hfields
    have hsignature := length_signature ho
    have hlit : (lit "HELLO|").length = 6 ∧ (lit "|").length = 1 := ⟨rfl, rfl⟩
    refine decide_eq_true ?_
    rw [Offer.reply, List.length_append, List.length_append, List.length_append, length_toHex]
    simp only [MAX_FRAME]
    omega
  refine ⟨o, ho, ⟨key, true, hlength⟩, hkey, rfl, ?_⟩
  unfold TrackerClient.call callTracker connect TrackerService.connection accept
  simp only [hp, h.hclientNonce, ne_eq, not_true_eq_false, Bool.not_true, Bool.false_eq_true, if_false, Talk.say_bind,
    Talk.hear_bind, Talk.receive_bind, Talk.pure_eq]
  simp only [Talk.send_bind, Talk.receive_bind, Talk.settle, hhello, hq, ho, hreply, hfound, hkey, hof,
    Option.bind_some, if_true, Bool.not_true, Bool.false_eq_true, if_false, Talk.done_bind]
  rfl

end Call

/-- Whichever transfers of a call are cut or fail, the client and the tracker agree: an answer is what `apply` returned
for exactly this request, and the tracker has applied it at most once. If none fails after an undisturbed handshake, the
request is applied and answered; only a message that cannot be sealed or is too long for a frame gets lost, and a lost
reply leaves the request applied. -/
theorem call_over_streams (ssl : OpenSsl)
    (hopens : ∀ k n a p c t, ssl.gcmSeal k n a p = some (c, t) → ssl.gcmOpen k n a c t = some p) (identity : KeyPair)
    (connected : Bool) (client : ConnectDraws) (tracker : AcceptDraws) (s : TrackerState) (context : ApplyContext)
    (address command : Bytes) (session : UInt64)
    (hx : ∀ p q, client.ephemeral = some p → tracker.ephemeral = some q → Commutes ssl p q) (io io' : List Transfer) :
    (∃ answer served, Talk.Together Socket.transport
      (TrackerClient.call ssl connected identity.publicKey client session command)
      (TrackerService.connection ssl identity.privateKey tracker s context address) io io' answer served) ∧
    ∀ answer served, Talk.Together Socket.transport
        (TrackerClient.call ssl connected identity.publicKey client session command)
        (TrackerService.connection ssl identity.privateKey tracker s context address) io io' answer served →
      Agrees ssl s context session command answer served ∧
      ∀ p q, connected = true → client.ephemeral = some p → tracker.ephemeral = some q →
        World.Undisturbed ssl identity p q client.nonce tracker.nonce client.started tracker.parsed tracker.replied
          client.finished → .failed ∉ io → .failed ∉ io' →
        ∃ (o : Offer) (ch : Channel), acceptHello ssl identity.privateKey tracker.parsed tracker.replied (some q)
            tracker.nonce (connectHello client.started p client.nonce) = some o ∧ acceptFinish ssl o = some ch.key ∧
          ch.client = true ∧ Settled ssl ch client.random tracker.random s context session command address
            (TrackerLog.info (lit "Connection from " ++ address)) answer served := by
  have hends := @ends_call ssl identity client tracker s context address command session connected hopens hx
  refine ⟨hends.exists_together (call_careful client) (connection_careful tracker) io io',
    fun answer served htogether => ⟨hends.together (call_careful client) (connection_careful tracker) htogether,
      fun p q hconnected hp hq hundisturbed hio hio' => ?_⟩⟩
  subst hconnected
  obtain ⟨o, ho, ch, hkey, hclient, hsettle⟩ := @settle_handshake ssl identity client tracker s context address command
    session p q hp hq hundisturbed
  obtain ⟨answer', served', hsettled, hresult⟩ := @settle_request ssl s context address command session hopens ch
    client.random tracker.random (TrackerLog.info (lit "Connection from " ++ address))
  have hpair := Talk.settle_together (hsettle.trans hsettled) (call_careful client) (connection_careful tracker) hio hio'
    htogether
  rw [Prod.mk.injEq] at hpair
  obtain ⟨rfl, rfl⟩ := hpair
  exact ⟨o, ch, ho, hkey, hclient, hresult⟩

section Example

open World

def drawsOfClient : ConnectDraws := ⟨some ofClient, clientNonce, 1000, 1003, requestSealing.random⟩

def drawsOfTracker : AcceptDraws := ⟨some ofTracker, trackerNonce, 1000, 1001, replySealing.random⟩

/-- A request without a session, on sockets that move a few bytes at a time. -/
theorem call_over_streams_list_groups : ∃ answer served, Talk.Together Socket.transport
    (TrackerClient.call sealedRecording.replay true trackerIdentity.publicKey drawsOfClient 0 (lit "list_groups"))
    (TrackerService.connection sealedRecording.replay trackerIdentity.privateKey drawsOfTracker .empty ⟨[], 0, 1003⟩
      (lit "10.0.0.9:5000")) [.upTo 2, .interrupted, .upTo 40] [.upTo 0, .upTo 7] answer served ∧
    answer = ⟨true, lit "ERR login required", 0⟩ := by
  have hproper : sealedRecording.Proper := by decide +kernel
  obtain ⟨⟨answer, served, htogether⟩, hall⟩ := call_over_streams sealedRecording.replay
    (Recording.gcmCorrect hproper).opens trackerIdentity true drawsOfClient drawsOfTracker .empty ⟨[], 0, 1003⟩
    (lit "10.0.0.9:5000") (lit "list_groups") 0 (by
      rintro p q hp hq
      obtain rfl := Option.some.inj hp
      obtain rfl := Option.some.inj hq
      decide +kernel) [.upTo 2, .interrupted, .upTo 40] [.upTo 0, .upTo 7]
  obtain ⟨o, ⟨key, end_, hlength⟩, ho, hkey, rfl, hsettled⟩ := (hall answer served htogether).2 ofClient ofTracker rfl
    rfl rfl ⟨by decide, by decide, by decide, by decide, by decide, by decide, by decide, by decide +kernel,
      by decide +kernel, by decide +kernel, by decide +kernel⟩ (by decide) (by decide)
  obtain rfl : key = channelKey := by
    have hboth : (acceptHello sealedRecording.replay trackerIdentity.privateKey drawsOfTracker.parsed
        drawsOfTracker.replied (some ofTracker) drawsOfTracker.nonce (connectHello drawsOfClient.started ofClient
          drawsOfClient.nonce)).bind (acceptFinish sealedRecording.replay) = some channelKey := by decide +kernel
    rw [ho, Option.bind_some, hkey] at hboth
    exact Option.some.inj hboth
  have hrequest : exampleChannel.Passes sealedRecording.replay drawsOfClient.random
      (TrackerClient.message 0 (lit "list_groups")) :=
    ⟨⟨by decide, by decide +kernel, by decide +kernel⟩, by decide +kernel⟩
  have hreply : exampleChannel.other.Passes sealedRecording.replay drawsOfTracker.random (TrackerService.handle
      sealedRecording.replay .empty ⟨[], 0, 1003⟩ (TrackerClient.message 0 (lit "list_groups"))).2 :=
    ⟨⟨by decide, by decide +kernel, by decide +kernel⟩, by decide +kernel⟩
  have hanswered := hsettled.answered hrequest hreply
  have hresult : (TrackerState.empty.apply sealedRecording.replay 0 (lit "list_groups") ⟨[], 0, 1003⟩).2 =
      ⟨lit "ERR login required", 0⟩ := by decide +kernel
  rw [hresult] at hanswered
  exact ⟨answer, served, htogether, hanswered.1⟩

end Example

end TorrentAtlas
