import TorrentAtlas.TrackerMembership
import TorrentAtlas.PeerServer

/-!
# Bounded revocation

Tickets are issued to current members only and live 300 seconds, so a user who
is out of a group holds no ticket that outlasts the time of leaving by more than
that. On the seeder's side a request is answered only under the key of the
re-encoded ticket, so an edited ticket text needs a key the tracker never issued.
-/
namespace TorrentAtlas.TrackerState

open Encoding Crypto PeerProtocol

/-- One ticket handed out, for the seeder with this peer key. -/
structure Issue where
  ticket : PeerTicket
  peerKey : Bytes
  deriving DecidableEq, Repr

/-- The tickets in the reply of one command. -/
def issues (e : TrackerEvent) : List Issue :=
  match words e.input.commandLine with
  | [command, name, hexFile] =>
    if command = lit "download_file" && (lit "META ").isPrefixOf e.output.response then
      match e.before.findGroup name, fromHex hexFile with
      | some group, some fileName =>
        match group.files.find fileName with
        | some file =>
          let ticket : PeerTicket :=
            ⟨e.before.userOf e.input.session, name, fileName, e.input.context.now + PeerTicket.LIFETIME_SECONDS⟩
          file.seeders.entries.map (fun seeder => ⟨ticket, seeder.2.peerKey⟩)
        | none => []
      | _, _ => []
    else []
  | _ => []

/-- All tickets issued in a run. -/
def issued (ssl : OpenSsl) (calls : List Call) : List Issue := (Machine.events (step ssl) empty calls).flatMap issues

instance (s : TrackerState) (g u : Bytes) : Decidable (Member s g u) :=
  decidable_of_iff ((s.groups.find g).any (·.members.contains u) = true) (by
    cases h : s.groups.find g <;> simp [Member, h])

variable {ssl : OpenSsl}

theorem issueAccesses_eq_some {ticket : PeerTicket} {seeders : List (Bytes × Seeder)} {accesses : List SeederAccess}
    (h : issueAccesses ssl ticket seeders = some accesses) :
    accesses = seeders.map (fun s => ⟨s.2.endpoint, ticket.encode, ticket.key ssl s.2.peerKey⟩) ∧
      ∀ a ∈ accesses, a.key ≠ [] := by
  induction seeders generalizing accesses with
  | nil => cases h; simp
  | cons s rest ih =>
    obtain ⟨user, seeder⟩ := s
    simp only [issueAccesses] at h
    split at h
    · simp at h
    · next hkey =>
      obtain ⟨tail, htail, rfl⟩ := Option.map_eq_some_iff.mp h
      obtain ⟨rfl, hkeys⟩ := ih htail
      simp only [List.isEmpty_iff] at hkey
      exact ⟨rfl, List.forall_mem_cons.mpr ⟨hkey, hkeys⟩⟩

theorem Located.issues {s : TrackerState} {c : Call} {name hexFile fileName : Bytes} {group : Group}
    {file : SharedFile} {accesses : List SeederAccess}
    (h : Located ssl s c name hexFile fileName group file accesses) :
    issues (Machine.event (step ssl) s c) = file.seeders.entries.map
      (fun seeder => ⟨⟨s.userOf c.session, name, fileName, c.context.now + 300⟩, seeder.2.peerKey⟩) := by
  simp [TrackerState.issues, Machine.event, h.hwords, h.hresponse, metaReply_isPrefixOf, findGroup, h.hgroup, h.hname,
    h.hfile, PeerTicket.LIFETIME_SECONDS]

/-- `issues` lists the tickets and keys that a `META` reply carries, seeder by seeder. -/
theorem issues_of_meta {s : TrackerState} {c : Call}
    (hmeta : (lit "META ").isPrefixOf (step ssl s c).2.response = true) :
    ∃ metadata accesses, (step ssl s c).2.response = metaReply metadata accesses ∧
      accesses.map (fun a => (a.ticket, a.key)) = (issues (Machine.event (step ssl) s c)).map
        (fun i => (i.ticket.encode, i.ticket.key ssl i.peerKey)) := by
  obtain ⟨name, hexFile, fileName, group, file, accesses, hl⟩ := located_of_meta hmeta
  refine ⟨file.metadata, accesses, hl.hresponse, ?_⟩
  rw [hl.issues, (issueAccesses_eq_some hl.hissued).1]
  simp

theorem meta_of_mem_issues {e : TrackerEvent} {i : Issue} (h : i ∈ issues e) :
    (lit "META ").isPrefixOf e.output.response = true := by
  unfold issues at h
  split at h
  · split at h
    · next hc => simp only [Bool.and_eq_true] at hc; exact hc.2
    · simp at h
  · simp at h

/-- A ticket names a member of its group at the time of issue and lasts 300 seconds. -/
theorem of_mem_issues {s : TrackerState} {c : Call} {i : Issue} (h : i ∈ issues (Machine.event (step ssl) s c)) :
    Member s i.ticket.group i.ticket.user ∧ i.ticket.expires = c.context.now + 300 := by
  obtain ⟨name, hexFile, fileName, group, file, accesses, hl⟩ := located_of_meta (meta_of_mem_issues h)
  rw [hl.issues] at h
  obtain ⟨seeder, -, rfl⟩ := List.mem_map.mp h
  exact ⟨(member_of_find hl.hgroup).mpr hl.hmember, rfl⟩

section Issued

variable {calls before after : List Call} {i : Issue} {g u : Bytes} {t : Int}

/-- Where in a run a ticket comes from. -/
theorem of_mem_issued (h : i ∈ issued ssl calls) : ∃ earlier c later, calls = earlier ++ c :: later ∧
    Member (Machine.run (step ssl) empty earlier) i.ticket.group i.ticket.user ∧
      i.ticket.expires = c.context.now + 300 := by
  obtain ⟨e, he, hi⟩ := List.mem_flatMap.mp h
  obtain ⟨past, future, hsplit⟩ := List.append_of_mem he
  obtain ⟨earlier, c, later, rfl, -, rfl, -⟩ := Machine.events_split hsplit
  exact ⟨earlier, c, later, rfl, of_mem_issues hi⟩

/-- Every `META` reply of a run carries what `issues` lists. -/
theorem meta_eq_of_mem_events {e : TrackerEvent} (he : e ∈ Machine.events (step ssl) empty calls)
    (hmeta : (lit "META ").isPrefixOf e.output.response = true) :
    ∃ metadata accesses, e.output.response = metaReply metadata accesses ∧
      accesses.map (fun a => (a.ticket, a.key)) = (issues e).map
        (fun i => (i.ticket.encode, i.ticket.key ssl i.peerKey)) := by
  obtain ⟨past, future, hsplit⟩ := List.append_of_mem he
  obtain ⟨earlier, c, later, -, -, rfl, -⟩ := Machine.events_split hsplit
  exact issues_of_meta hmeta

theorem issued_append : issued ssl (before ++ after) = issued ssl before ++
    (Machine.events (step ssl) (Machine.run (step ssl) empty before) after).flatMap issues := by
  simp [issued, Machine.events_append]

/-- Tickets for `u` in `g` that outlast a time of non-membership would have to be issued to a non-member. -/
theorem expires_le_of_issued (hbefore : ∀ c ∈ before, c.context.now ≤ t)
    (hout : ∀ k, ¬ Member (Machine.run (step ssl) empty (before ++ after.take k)) g u)
    (hi : i ∈ issued ssl (before ++ after)) (hu : i.ticket.user = u) (hg : i.ticket.group = g) :
    i.ticket.expires ≤ t + 300 := by
  obtain ⟨earlier, c, later, hcalls, hmember, hexpires⟩ := of_mem_issued hi
  rw [hu, hg] at hmember
  rcases List.append_eq_append_iff.mp hcalls with ⟨rest, rfl, hafter⟩ | ⟨rest, hbefore', hlater⟩
  · have htake : after.take rest.length = rest := by rw [hafter]; exact List.take_left
    have := hout rest.length
    rw [htake] at this
    exact absurd hmember this
  · cases rest with
    | nil =>
      have := hout 0
      simp only [List.append_nil] at hbefore'
      rw [List.take_zero, List.append_nil, hbefore'] at this
      exact absurd hmember this
    | cons c' rest =>
      simp only [List.cons_append, List.cons.injEq] at hlater
      have hc := hbefore c (by rw [hbefore', hlater.1]; simp)
      omega

end Issued

/-- Ideal HMAC for one seeder: nobody else holds its peer key, so the only values under it that
are used as keys outside are those of tickets the tracker issued. -/
def IdealHmac (ssl : OpenSsl) (peerKey : Bytes) (issues : List Issue) (outside : List Sealing) : Prop :=
  ∀ s ∈ outside, ∀ text, s.key = hmacSha256 ssl peerKey text →
    ∃ i ∈ issues, i.peerKey = peerKey ∧ text = lit "torrent-peer-ticket-v1|" ++ i.ticket.encode

/-- What the seeder with this peer key encrypts itself: the reply to a request it has accepted. -/
def RepliedBy (ssl : OpenSsl) (peerKey : Bytes) (s : Sealing) : Prop :=
  ∃ now request access, PeerServer.authenticate ssl peerKey now request = some access ∧ s.key = access.key ∧
    s.aad = replyAad access.aad access.hexNonce

theorem RepliedBy.aad_ne {peerKey : Bytes} {s : Sealing} (h : RepliedBy ssl peerKey s) (ticket : Bytes) :
    s.aad ≠ requestAad ticket := by
  obtain ⟨-, -, access, -, -, haad⟩ := h
  rw [haad]
  intro heq
  have := congrArg (fun b : Bytes => b.head?) heq
  simp [replyAad, requestAad, REPLY, REQUEST, lit] at this

/-- A request accepted for a ticket, from people who do not hold the peer key, rests on an issue of that ticket. -/
theorem issued_of_authenticate {peerKey request : Bytes} {now : Int} {access : PeerServer.Access}
    {tickets : List Issue} {outside replies : List Sealing} (hhmac : IdealHmac ssl peerKey tickets outside)
    (hreplies : ∀ s ∈ replies, RepliedBy ssl peerKey s)
    (hgcm : ∀ m, decode (split request (chr '|')) 2 = some m → IdealGcm ssl (outside ++ replies) m)
    (h : PeerServer.authenticate ssl peerKey now request = some access) :
    ∃ i ∈ tickets, i.peerKey = peerKey ∧ i.ticket = access.ticket := by
  obtain ⟨text, nonce, ciphertext, tag, message, plain, index, stamp, hfields, -, -, hmessage, hkey, haad, -, hplain, -⟩
    := PeerServer.authenticate_eq_some.mp h
  obtain ⟨s, hs, hskey, hsaad, -⟩ := hgcm message (by rw [hfields]; exact hmessage) _ _ _ hplain
  rcases List.mem_append.mp hs with hs | hs
  · obtain ⟨i, hi, hpeer, htext⟩ := hhmac s hs _ (hskey.trans hkey)
    exact ⟨i, hi, hpeer, (PeerTicket.encode_injective (List.append_cancel_left htext)).symm⟩
  · exact absurd (hsaad.trans haad) ((hreplies s hs).aad_ne text)

/-- `issues` lists what the `META` replies of a run carry. Once `u` is out of `g`, no ticket for them lasts longer than
300 seconds more, and after that no seeder answers any request for them that was put together from issued tickets and
keys. -/
theorem bounded_revocation (ssl : OpenSsl) (before after : List Call) (c : Call) (g u : Bytes)
    (hclock : (before ++ c :: after).Pairwise (fun a b => a.context.now ≤ b.context.now))
    (hout : ∀ k, ¬ Member (Machine.run (step ssl) empty (before ++ c :: after.take k)) g u) :
    (∀ e ∈ Machine.events (step ssl) empty (before ++ c :: after), (lit "META ").isPrefixOf e.output.response = true →
      ∃ metadata accesses, e.output.response = metaReply metadata accesses ∧
        accesses.map (fun a => (a.ticket, a.key)) =
          (issues e).map (fun i => (i.ticket.encode, i.ticket.key ssl i.peerKey))) ∧
    (∀ i ∈ issued ssl (before ++ [c]), i.ticket.user = u → i.ticket.group = g →
      i.ticket.expires ≤ c.context.now + 300) ∧
    ∀ (now : Int) (peerKey : Bytes) (files : SharedFiles) (disk : PeerServer.Disk) (random request : Bytes)
      (outside replies : List Sealing) (ticket : PeerTicket), c.context.now + 300 ≤ now →
      IdealHmac ssl peerKey (issued ssl (before ++ c :: after)) outside →
      (∀ s ∈ replies, RepliedBy ssl peerKey s) →
      (∀ m, decode (split request (chr '|')) 2 = some m → IdealGcm ssl (outside ++ replies) m) →
      PeerTicket.decode ((split request (chr '|')).getD 1 []) = some ticket →
      ticket.user = u → ticket.group = g →
      PeerServer.respond ssl peerKey files disk now random request = DENIED := by
  have hbefore : ∀ d ∈ before ++ [c], d.context.now ≤ c.context.now := by
    intro d hd
    rcases List.mem_append.mp hd with hd | hd
    · exact (List.pairwise_append.mp hclock).2.2 d hd c List.mem_cons_self
    · rw [List.mem_singleton.mp hd]
  have hsplit : ∀ rest : List Call, before ++ c :: rest = (before ++ [c]) ++ rest := by simp
  refine ⟨fun e he hmeta => meta_eq_of_mem_events he hmeta, fun i hi hu hg => ?_, ?_⟩
  · refine @expires_le_of_issued ssl (before ++ [c]) [] i g u _ hbefore (fun k => ?_) (by simpa using hi) hu hg
    simpa using hout 0
  · intro now peerKey files disk random request outside replies ticket hnow hhmac hreplies hgcm hticket hu hg
    cases ha : PeerServer.authenticate ssl peerKey now request with
    | none => simp [PeerServer.respond, ha]
    | some access =>
      obtain ⟨i, hi, -, hi'⟩ := issued_of_authenticate hhmac hreplies hgcm ha
      obtain ⟨text, nonce, ciphertext, tag, _, _, _, _, hfields, htext, hexpired, -⟩ :=
        PeerServer.authenticate_eq_some.mp ha
      have hsame : access.ticket = ticket := by
        rw [hfields] at hticket
        exact Option.some.inj (htext.symm.trans hticket)
      rw [hsplit] at hi
      have hle := expires_le_of_issued hbefore (fun k => by rw [← hsplit]; exact hout k) hi
        (by rw [hi', hsame, hu]) (by rw [hi', hsame, hg])
      rw [hi'] at hle
      simp only [PeerTicket.expired, decide_eq_false_iff_not, ge_iff_le, not_le] at hexpired
      omega

section Example

def peerKeyOfAlice : Bytes := ofHex 32 0x202122232425262728292a2b2c2d2e2f303132333435363738393a3b3c3d3e3f
def keyOf1300 : Bytes := ofHex 32 0x25d827585b3543c6f49d240652b90ff8c94f50eb9688c2cc3d9c2b0fc3ec3aff
def keyOf1500 : Bytes := ofHex 32 0x54224067aefeb62cfc369967c493b15cb3256471befffd5d3938035c1f9e88ca
def saltOfAlice : Bytes := ofHex 16 0x000102030405060708090a0b0c0d0e0f
def saltOfBob : Bytes := ofHex 16 0x101112131415161718191a1b1c1d1e1f

/-- Bob's request, encrypted under the key of his ticket but carrying a ticket text with a later expiry. -/
def stretched : Sealing :=
  ⟨ofHex 12 0x6465666768696a6b6c6d6e6f, keyOf1300, lit "21|626f62.67.66.1500", lit "BITMAP\n0\n1400"⟩

def stretchedMessage : AesGcmMessage :=
  ⟨stretched.random, ofHex 13 0xb4ac14af07cf8b67a6a2e65593, ofHex 16 0x23e0bbd8de63148b35fd5167c4ac7a19⟩

def recording : Recording where
  pbkdf2 := [((lit "apple", saltOfAlice, 20000),
      ofHex 32 0xea6fe4b0da0bcb9ea066044be7359882be221ae33d508d4ba90283eba2af21bc),
    ((lit "banana", saltOfBob, 20000),
      ofHex 32 0x4e261758108421f29f2fcc53b75f76b0f66c842f4b11f76057d78e45c08a3e6c)]
  hmac := [((peerKeyOfAlice, lit "torrent-peer-ticket-v1|626f62.67.66.1300"), keyOf1300),
    ((peerKeyOfAlice, lit "torrent-peer-ticket-v1|626f62.67.66.1500"), keyOf1500)]
  sealed := [⟨stretched.key, stretched.random, stretched.aad, stretched.plain, stretchedMessage.ciphertext,
    stretchedMessage.tag⟩]

/-- Alice shares an empty file with Bob, who fetches a ticket at time 1000. -/
def aliceAndBob : List Call := [
  ⟨0, lit "create_user alice apple", ⟨saltOfAlice, 0, 1000⟩⟩,
  ⟨0, lit "create_user bob banana", ⟨saltOfBob, 0, 1000⟩⟩,
  ⟨0, lit "login alice apple", ⟨[], 7, 1000⟩⟩,
  ⟨0, lit "login bob banana", ⟨[], 9, 1000⟩⟩,
  ⟨7, lit "create_group g", ⟨[], 0, 1000⟩⟩,
  ⟨9, lit "join_group g", ⟨[], 0, 1000⟩⟩,
  ⟨7, lit "accept_request g bob", ⟨[], 0, 1000⟩⟩,
  ⟨7, lit "upload_file g 66 0 da39a3ee5e6b4b0d3255bfef95601890afd80709 - 10.0.0.1 6881 " ++ toHex peerKeyOfAlice,
    ⟨[], 0, 1000⟩⟩,
  ⟨9, lit "download_file g 66", ⟨[], 0, 1000⟩⟩]

/-- Bob leaves at time 1100; at time 1400 Alice's client denies him the stretched ticket. -/
theorem bounded_revocation_bob :
    (⟨⟨lit "bob", lit "g", lit "f", 1300⟩, peerKeyOfAlice⟩ : Issue) ∈ issued recording.replay aliceAndBob ∧
    PeerServer.respond recording.replay peerKeyOfAlice SharedFiles.empty ⟨fun _ => none, []⟩ 1400 []
      (encode stretched.aad stretchedMessage) = DENIED := by
  have hissued : (⟨⟨lit "bob", lit "g", lit "f", 1300⟩, peerKeyOfAlice⟩ : Issue) ∈
      issued recording.replay aliceAndBob := by decide +kernel
  refine ⟨hissued, ?_⟩
  refine (bounded_revocation recording.replay aliceAndBob [] ⟨9, lit "leave_group g", ⟨[], 0, 1100⟩⟩ (lit "g")
    (lit "bob") (by decide +kernel) (fun k => ?_)).2.2 1400 peerKeyOfAlice _ _ _ _ [stretched] []
    ⟨lit "bob", lit "g", lit "f", 1500⟩ (by decide) ?_ (by simp) ?_ (by decide +kernel) rfl rfl
  · rw [List.take_nil]
    decide +kernel
  · intro s hs text hkey
    rw [List.mem_singleton.mp hs] at hkey
    have hmem := @Recording.of_hmacSha256 recording peerKeyOfAlice text (by
      rw [← hkey]
      decide)
    rw [← hkey] at hmem
    simp only [recording, List.mem_cons, Prod.mk.injEq, List.not_mem_nil, or_false, true_and] at hmem
    rcases hmem with ⟨rfl, -⟩ | ⟨-, hne⟩
    · exact ⟨_, by rw [issued_append]; exact List.mem_append_left _ hissued, rfl, by decide +kernel⟩
    · exact absurd hne (by decide)
  · intro m hm key aad plain hplain
    have hfields : decode (split (encode stretched.aad stretchedMessage) (chr '|')) 2 = some stretchedMessage := by
      decide +kernel
    obtain rfl := Option.some.inj (hfields.symm.trans hm)
    obtain ⟨s, hs, rfl, -, rfl, rfl, -⟩ := Recording.of_decrypt (by decide) hplain
    rw [List.mem_singleton.mp hs]
    exact ⟨stretched, by simp, rfl, rfl, rfl, by decide +kernel⟩

end Example

end TorrentAtlas.TrackerState
