import TorrentAtlas.EndToEnd
import TorrentAtlas.SealedDelivery
import TorrentAtlas.TrackerWire

/-!
# Replies and the frame cap (`tracker/state/tracker_state.cpp`, `common/net/net.cpp`)

`sendFrame` refuses what is longer than `MAX_FRAME`. The text of a `META` reply repeats the
stored hash list and holds one entry for each seeder, with a ticket that spells user,
group and file in hex; nothing in the tracker bounds it. Its size is computed here from
what is stored, and the channel can carry the reply exactly if that size fits.
-/
namespace TorrentAtlas

open Encoding Crypto SecureChannel

/-- The bytes of a ticket. -/
def PeerTicket.size (ticket : PeerTicket) : Nat :=
  2 * ticket.user.length + 2 * ticket.group.length + 2 * ticket.file.length + 3 + (decimalInt ticket.expires).length

/-- The bytes of the entry for one seeder: its endpoint, a ticket and a key of 64 hex digits. -/
def Seeder.entrySize (ticket : PeerTicket) (seeder : Seeder) : Nat :=
  seeder.endpoint.ip.length + 1 + (decimal seeder.endpoint.port).length + 1 + ticket.size + 1 + 64

/-- The bytes of a list of `count` piece hashes with commas, or of the dash in its place. -/
def FileMetadata.hashListSize (count : Nat) : Nat := if count = 0 then 1 else 41 * count - 1

/-- The bytes of the `META` text for a file. -/
def SharedFile.metaSize (file : SharedFile) (ticket : PeerTicket) : Nat :=
  5 + (decimal file.metadata.size.toNat).length + 1 + 40 + 1 +
    FileMetadata.hashListSize file.metadata.pieceCount + 1 +
    ((file.seeders.entries.map fun entry => entry.2.entrySize ticket).sum + (file.seeders.entries.length - 1))

/-- A single seeder's ticket spells the group, two digits a byte. -/
theorem SharedFile.group_le_metaSize {file : SharedFile} (user group name : Bytes) (expires : Int)
    {entry : Bytes × Seeder} (h : file.seeders.entries = [entry]) :
    2 * group.length ≤ file.metaSize ⟨user, group, name, expires⟩ := by
  rw [metaSize, h]
  simp only [List.map_cons, List.map_nil, List.sum_cons, List.sum_nil, Seeder.entrySize, PeerTicket.size]
  omega

theorem PeerTicket.length_encode (ticket : PeerTicket) : ticket.encode.length = ticket.size := by
  simp only [encode, size, List.length_append, length_toHex, show (lit ".").length = 1 from rfl]
  omega

theorem FileMetadata.length_pieceHashList {m : FileMetadata} (h : m.valid = true) :
    m.pieceHashList.length = hashListSize m.pieceCount := by
  unfold pieceHashList hashListSize pieceCount
  by_cases hnil : m.pieceHashes = []
  · simp [hnil, lit]
  · have hpos := List.length_pos_iff.mpr hnil
    have hlengths : m.pieceHashes.map List.length = List.replicate m.pieceHashes.length 40 := by
      rw [List.eq_replicate_iff]
      refine ⟨List.length_map .., ?_⟩
      intro n hn
      obtain ⟨hash, hhash, rfl⟩ := List.mem_map.mp hn
      have hhex := valid_pieceHash h hhash
      simp only [isSha1Hex, isHex, Bool.and_eq_true, beq_iff_eq] at hhex
      exact hhex.1
    rw [if_neg (by simpa using hnil), if_neg (by omega), length_join, hlengths, List.sum_replicate_nat]
    omega

namespace TrackerState

variable {ssl : OpenSsl} {s : TrackerState} {c : Call} {name hexFile fileName : Bytes} {group : Group}
  {file : SharedFile} {accesses : List SeederAccess}

theorem Issuable.length_encode {ticket : PeerTicket} {a : SeederAccess} (h : Issuable ticket a) :
    a.encode.length = (Seeder.entrySize ticket ⟨a.endpoint, []⟩) := by
  simp only [SeederAccess.encode, Endpoint.toString, Seeder.entrySize, List.length_append, length_toHex, h.key,
    h.ticket_eq, PeerTicket.length_encode, show (lit ":").length = 1 from rfl, show (lit "/").length = 1 from rfl]

/-- The `META` text has the size that the stored file gives it. -/
theorem Located.length_response (h : Located ssl s c name hexFile fileName group file accesses) (hs : s.Consistent) :
    (step ssl s c).2.response.length = file.metaSize ⟨s.userOf c.session, name, fileName, c.context.now + 300⟩ := by
  have hvalid := ((hs.group _ _ h.hgroup).file _ _ h.hfile).valid
  have hhash : file.metadata.fullHash.length = 40 := by
    have hhex := FileMetadata.valid_fullHash hvalid
    simp only [isSha1Hex, isHex, Bool.and_eq_true, beq_iff_eq] at hhex
    exact hhex.1
  have hentries : (accesses.map SeederAccess.encode).map List.length = file.seeders.entries.map
      (fun entry => entry.2.entrySize ⟨s.userOf c.session, name, fileName, c.context.now + 300⟩) := by
    have hlengths : (accesses.map SeederAccess.encode).map List.length = accesses.map
        (fun a => Seeder.entrySize ⟨s.userOf c.session, name, fileName, c.context.now + 300⟩ ⟨a.endpoint, []⟩) := by
      rw [List.map_map]
      exact List.map_congr_left fun a ha => (h.issuable hs a ha).length_encode
    rw [hlengths, h.accesses_eq, List.map_map]
    rfl
  have hcount : accesses.length = file.seeders.entries.length := by
    rw [h.accesses_eq, List.length_map]
  have hsum := ((List.perm_insertionSort (· ≤ ·) (accesses.map SeederAccess.encode)).map List.length).sum_eq
  have hsorted := (List.perm_insertionSort (· ≤ ·) (accesses.map SeederAccess.encode)).length_eq
  rw [h.hresponse, metaReply, SharedFile.metaSize]
  simp only [List.length_append, length_join, hhash, FileMetadata.length_pieceHashList hvalid, hsum, hsorted, hentries,
    hcount, List.length_map, show (lit "META ").length = 5 from rfl, show (lit " ").length = 1 from rfl]

/-- The reply to a download keeps the session of the request. -/
theorem Located.session_eq (h : Located ssl s c name hexFile fileName group file accesses) (hs : s.Consistent) :
    (step ssl s c).2.session = c.session := by
  have hlookup : (commands ssl).lookup (lit "download_file") =
      some ⟨downloadFile ssl, true, 2, lit "download_file <group> <file>"⟩ := rfl
  have hseeded : file.seeders.isEmpty = false :=
    (OrderedMap.isEmpty_eq_false_iff _).mpr ((hs.group _ _ h.hgroup).file _ _ h.hfile).seeded
  simp [step, apply, h.hwords, hlookup, h.huser, downloadFile, findGroup, Request.arg, h.hgroup, h.hmember, h.hname,
    h.hfile, hseeded, PeerTicket.LIFETIME_SECONDS, h.hissued, Request.reply]

end TrackerState

namespace SecureChannel.Channel

variable {ssl : OpenSsl} {ch : Channel} {random plain : Bytes} {io : List Transfer}

/-- `send` reports success, and the other end gets what was sent. -/
def Carries (ssl : OpenSsl) (ch : Channel) (random : Bytes) (io : List Transfer) (plain : Bytes) : Prop :=
  (ch.send ssl random io plain).ok = true ∧ ch.Delivers ssl random io plain

theorem length_sealed (h : ch.Encrypts ssl random plain) : (ch.sealed ssl random plain).length = 28 + plain.length := by
  obtain ⟨m, hm⟩ := encrypts_iff.mp h
  obtain ⟨-, hrandom, -, -, hnonce, hciphertext, htag, -⟩ := encrypt_eq_some ssl hm
  rw [sealed_of_encrypt hm]
  simp only [frameOf, List.length_append, hnonce, hrandom, hciphertext, htag, NONCE_SIZE, TAG_SIZE]

/-- What is too long once sealed is refused, and nothing is written. -/
theorem send_too_long (h : ch.Encrypts ssl random plain) (hlong : MAX_FRAME < 28 + plain.length) :
    (ch.send ssl random io plain).ok = false ∧ (ch.send ssl random io plain).written = [] := by
  rw [send, Socket.sendFrame, if_pos (by rw [length_sealed h]; exact hlong)]
  exact ⟨rfl, rfl⟩

/-- A working socket carries exactly what fits a frame once sealed. -/
theorem carries_iff (hgcm : GcmCorrect ssl) (hrandom : random.length = NONCE_SIZE) (hio : .failed ∉ io) :
    ch.Carries ssl random io plain ↔ 28 + plain.length ≤ MAX_FRAME := by
  have hsocket : ∀ payload : Bytes, payload.length ≤ MAX_FRAME → (Socket.sendFrame io payload).ok = true :=
    fun payload hsize => (Socket.sendFrame_of io hsize).complete hio
  have hencrypts : plain.length ≤ INT_MAX → ch.Encrypts ssl random plain :=
    fun hplain => ⟨hrandom, hplain, hgcm.seals _ _ _ _ ch.length_key hrandom⟩
  constructor
  · rintro ⟨hok, hdelivers⟩
    by_contra hlong
    rcases Nat.lt_or_ge INT_MAX plain.length with hint | hint
    · -- the encryption fails, and an empty frame goes out
      have hno : ¬ ch.Encrypts ssl random plain := fun h => absurd h.2.1 (Nat.not_le.mpr hint)
      have hempty : (Socket.sendAll io (htonl 0)).ok = true := by
        rw [send, sealed_of_failure hno, sendFrame_nil] at hok
        exact hok
      exact not_delivers hno hempty hdelivers
    · rw [(send_too_long (hencrypts hint) (Nat.lt_of_not_le hlong)).1] at hok
      exact absurd hok (by decide)
  · intro hfits
    have hint : plain.length ≤ INT_MAX := by
      simp only [MAX_FRAME, INT_MAX] at *
      omega
    have henc := hencrypts hint
    refine ⟨?_, delivers_of_encrypts hgcm.opens henc⟩
    exact hsocket _ (by rw [length_sealed henc]; exact hfits)

end SecureChannel.Channel

namespace TrackerService

/-- A decrypted request as it arrives. -/
structure Arrival where
  request : Bytes
  context : ApplyContext
  deriving DecidableEq, Repr

/-- A call, sent by a client. -/
def Arrival.of (c : Call) : Arrival := ⟨TrackerClient.message c.session c.commandLine, c.context⟩

/-- The tracker as a machine on requests. -/
def serve (ssl : OpenSsl) (s : TrackerState) (a : Arrival) : TrackerState × Bytes := handle ssl s a.context a.request

/-- What requests lead to, calls do: a malformed one changes nothing. -/
theorem reachable_of_serve {ssl : OpenSsl} {s : TrackerState} (h : Machine.Reachable (serve ssl) .empty s) :
    TrackerState.Reachable ssl s := by
  refine Machine.invariant (P := TrackerState.Reachable ssl) (Machine.Reachable.refl _) ?_ h
  intro t a ht
  rcases handle_cases ssl t a.context a.request with ⟨session, command, hrequest⟩ | hmalformed
  · rw [serve, handle_request ssl t a.context hrequest]
    exact ht.next ⟨session, command, a.context⟩
  · rw [serve, hmalformed]
    exact ht

theorem serve_of (ssl : OpenSsl) (s : TrackerState) (c : Call) : serve ssl s (Arrival.of c) =
    ((TrackerState.step ssl s c).1, (TrackerState.step ssl s c).2.response ++ lit "\t" ++
      decimal (TrackerState.step ssl s c).2.session.toNat) :=
  handle_message ssl s c.context c.session c.commandLine

theorem response_le_serve (ssl : OpenSsl) (s : TrackerState) (c : Call) :
    (TrackerState.step ssl s c).2.response.length ≤ (serve ssl s (Arrival.of c)).2.length := by
  rw [serve_of]
  simp only [List.length_append]
  omega

theorem run_serve_of (ssl : OpenSsl) (s : TrackerState) (calls : List Call) :
    Machine.run (serve ssl) s (calls.map Arrival.of) = Machine.run (TrackerState.step ssl) s calls := by
  induction calls generalizing s with
  | nil => rfl
  | cons c rest ih =>
    rw [List.map_cons, Machine.run_cons, Machine.run_cons, ← ih, serve_of]

/-- In every state that requests lead to, a download answered with `META` gets a reply whose size is fixed by the
stored file, its seeders and the ticket; a channel carries it to the client exactly if it fits a frame once sealed. -/
theorem meta_carried_iff (ssl : OpenSsl) (hgcm : GcmCorrect ssl) (s : TrackerState)
    (hreach : Machine.Reachable (serve ssl) .empty s) (a : Arrival) (session : UInt64) (line : Bytes)
    (hrequest : IsRequest a.request session line)
    (hmeta : (lit "META ").isPrefixOf (s.apply ssl session line a.context).2.response = true) :
    ∃ name hexFile fileName group file, words line = [lit "download_file", name, hexFile] ∧
      fromHex hexFile = some fileName ∧ s.groups.find name = some group ∧ group.files.find fileName = some file ∧
      (serve ssl s a).2.length = file.metaSize ⟨s.userOf session, name, fileName, a.context.now + 300⟩ + 1 +
        (decimal session.toNat).length ∧
      ∀ (ch : Channel) (random : Bytes) (io : List Transfer), random.length = NONCE_SIZE → .failed ∉ io →
        (ch.Carries ssl random io (serve ssl s a).2 ↔
          28 + (file.metaSize ⟨s.userOf session, name, fileName, a.context.now + 300⟩ + 1 +
            (decimal session.toNat).length) ≤ MAX_FRAME) := by
  have hs := (reachable_of_serve hreach).consistent
  obtain ⟨name, hexFile, fileName, group, file, accesses, hl⟩ :=
    @TrackerState.located_of_meta ssl s ⟨session, line, a.context⟩ hmeta
  have hlength : (serve ssl s a).2.length = file.metaSize ⟨s.userOf session, name, fileName, a.context.now + 300⟩ + 1 +
      (decimal session.toNat).length := by
    have hresponse := hl.length_response hs
    have hsession := hl.session_eq hs
    rw [TrackerState.step] at hresponse hsession
    rw [serve, handle_request ssl s a.context hrequest]
    simp only [List.length_append, hresponse, hsession, show (lit "\t").length = 1 from rfl]
  refine ⟨name, hexFile, fileName, group, file, hl.hwords, hl.hname, hl.hgroup, hl.hfile, hlength, ?_⟩
  intro ch random io hrandom hio
  rw [← hlength]
  exact Channel.carries_iff hgcm hrandom hio

end TrackerService

section Example

open TrackerState TrackerService

/-- Bob's lookup of Alice's file fits, and the channel carries it. -/
theorem TrackerService.meta_carried_bob : exampleChannel.other.Carries recording.replay (List.replicate 12 0) []
    (serve recording.replay (Machine.run (serve recording.replay) .empty ((aliceAndBob.take 8).map Arrival.of))
      (Arrival.of bobLocates)).2 := by
  have hrun : (lit "META ").isPrefixOf (TrackerState.apply recording.replay
        (Machine.run (serve recording.replay) .empty ((aliceAndBob.take 8).map Arrival.of)) 9 bobLocates.commandLine
        (Arrival.of bobLocates).context).2.response = true ∧
      28 + (serve recording.replay (Machine.run (serve recording.replay) .empty ((aliceAndBob.take 8).map Arrival.of))
        (Arrival.of bobLocates)).2.length ≤ MAX_FRAME := by decide +kernel
  obtain ⟨_, _, _, _, _, -, -, -, -, hlength, hcarries⟩ := meta_carried_iff recording.replay
    (Recording.gcmCorrect (by decide +kernel)) _ ⟨(aliceAndBob.take 8).map Arrival.of, rfl⟩ (Arrival.of bobLocates) 9
    bobLocates.commandLine (isRequest_message 9 bobLocates.commandLine) hrun.1
  refine (hcarries exampleChannel.other (List.replicate 12 0) [] (by decide) (by simp)).mpr ?_
  rw [← hlength]
  exact hrun.2

namespace TrackerState

variable {ssl : OpenSsl} {s : TrackerState} {c : Call} {name : Bytes}

theorem step_createGroup (hwords : words c.commandLine = [lit "create_group", name])
    (huser : s.userOf c.session ≠ []) (hnew : s.groups.find name = none) : (step ssl s c).1 =
      s.setGroup name ⟨s.userOf c.session, OrderedMap.empty.insert (s.userOf c.session) (), .empty, .empty⟩ := by
  have hlookup : (commands ssl).lookup (lit "create_group") =
      some ⟨createGroup, true, 1, lit "create_group <group>"⟩ := rfl
  simp [step, apply, hwords, hlookup, huser, createGroup, Request.arg, OrderedMap.contains, hnew]

theorem step_uploadFile {args : List Bytes} {group : Group} {upload : Upload} {file : SharedFile}
    (hwords : words c.commandLine = lit "upload_file" :: name :: args) (huser : s.userOf c.session ≠ [])
    (hgroup : s.groups.find name = some group) (hmember : group.members.contains (s.userOf c.session) = true)
    (hupload : parseUpload (name :: args) = some upload)
    (hfile : shareFile (group.files.find upload.name) upload (s.userOf c.session) = some file) :
    (step ssl s c).1 = s.setGroup name { group with files := group.files.insert upload.name file } := by
  have hlookup : (commands ssl).lookup (lit "upload_file") =
      some ⟨uploadFile, true, -1, lit "upload_file"⟩ := rfl
  simp [step, apply, hwords, hlookup, huser, uploadFile, findGroup, Request.arg, hgroup, hmember, hupload, hfile]

def emptyFile : FileMetadata := ⟨0, lit "da39a3ee5e6b4b0d3255bfef95601890afd80709", []⟩

/-- Alice logs in, makes a group and shares an empty file there. -/
def shareIn (name : Bytes) : List Call := aliceAndBob.take 3 ++ [
  ⟨7, lit "create_group " ++ name, ⟨[], 0, 1000⟩⟩,
  ⟨7, TrackerClient.shareCommand aliceEndpoint peerKeyOfAlice name (lit "f") emptyFile, ⟨[], 0, 1000⟩⟩]

def locateIn (name : Bytes) : Call := ⟨7, TrackerClient.locateCommand name (lit "f"), ⟨[], 0, 1000⟩⟩

/-- The group she makes, and the file as the tracker stores it. -/
def aliceGroup : Group := ⟨lit "alice", OrderedMap.empty.insert (lit "alice") (), .empty, .empty⟩

def sharedEmpty : SharedFile :=
  ⟨emptyFile, OrderedMap.empty.insert (lit "alice") ⟨aliceEndpoint, peerKeyOfAlice⟩⟩

theorem words_createGroup (hname : name ≠ [] ∧ ∀ b ∈ name, isSpace b = false) :
    words (lit "create_group " ++ name) = [lit "create_group", name] := by
  have hline : lit "create_group " ++ name = [chr ' '].intercalate [lit "create_group", name] := by
    simp [List.intercalate_cons_cons, lit, chr]
  rw [hline]
  refine Delimited.words_intercalate (by decide) ?_
  simp only [List.mem_cons, List.not_mem_nil, or_false, forall_eq_or_imp, forall_eq]
  exact ⟨by decide +kernel, hname⟩

/-- The field checks do not look at the group. -/
theorem parseUpload_emptyFile (name : Bytes) : parseUpload [name, toHex (lit "f"), decimal emptyFile.size.toNat,
    emptyFile.fullHash, emptyFile.pieceHashList, aliceEndpoint.ip, decimal aliceEndpoint.port,
    toHex peerKeyOfAlice] = some ⟨lit "f", emptyFile, ⟨aliceEndpoint, peerKeyOfAlice⟩⟩ := by
  have hnil : parseUpload [[], toHex (lit "f"), decimal emptyFile.size.toNat, emptyFile.fullHash,
      emptyFile.pieceHashList, aliceEndpoint.ip, decimal aliceEndpoint.port, toHex peerKeyOfAlice] =
        some ⟨lit "f", emptyFile, ⟨aliceEndpoint, peerKeyOfAlice⟩⟩ := by decide +kernel
  exact hnil

/-- From a state in which Alice is logged in, her two commands leave the group with the file. -/
theorem run_share (hname : name ≠ [] ∧ ∀ b ∈ name, isSpace b = false) (huser : s.userOf 7 = lit "alice")
    (hnew : s.groups.find name = none) : Machine.run (step ssl) s ((shareIn name).drop 3) =
      (s.setGroup name aliceGroup).setGroup name
        { aliceGroup with files := aliceGroup.files.insert (lit "f") sharedEmpty } := by
  have halice : lit "alice" ≠ [] := by decide
  have hcreated := @step_createGroup ssl s ⟨7, lit "create_group " ++ name, ⟨[], 0, 1000⟩⟩ name
    (words_createGroup hname) (by rw [huser]; exact halice) hnew
  rw [huser] at hcreated
  have hparse : Endpoint.parse (lit "10.0.0.1:6881") = some aliceEndpoint := by decide +kernel
  have hself := (Endpoint.parse_eq_some hparse).1
  have hwords := @words_shareCommand aliceEndpoint peerKeyOfAlice name (lit "f") emptyFile
    ⟨hself.ip_ne_nil, by decide +kernel⟩ hname (by decide) (by decide +kernel) (by decide +kernel)
  have huser' : (s.setGroup name aliceGroup).userOf 7 = lit "alice" := huser
  have hshared := @step_uploadFile ssl (s.setGroup name aliceGroup)
    ⟨7, TrackerClient.shareCommand aliceEndpoint peerKeyOfAlice name (lit "f") emptyFile, ⟨[], 0, 1000⟩⟩ name _
    aliceGroup _ sharedEmpty hwords (by rw [huser']; exact halice) (by simp [setGroup])
    (by rw [huser']; simp [aliceGroup]) (parseUpload_emptyFile name) (by rw [huser']; rfl)
  have hcalls : (shareIn name).drop 3 = [⟨7, lit "create_group " ++ name, ⟨[], 0, 1000⟩⟩,
      ⟨7, TrackerClient.shareCommand aliceEndpoint peerKeyOfAlice name (lit "f") emptyFile, ⟨[], 0, 1000⟩⟩] := rfl
  rw [hcalls, Machine.run_cons, hcreated, Machine.run_cons, Machine.run_nil]
  exact hshared

/-- Whatever the group is called, Alice finds her file with a ticket that spells the name. -/
theorem located_shareIn (hname : name ≠ [] ∧ ∀ b ∈ name, isSpace b = false)
    (hstart : (Machine.run (step ssl) empty (aliceAndBob.take 3)).userOf 7 = lit "alice" ∧
      (Machine.run (step ssl) empty (aliceAndBob.take 3)).groups.isEmpty = true)
    (hkey : PeerTicket.key ssl ⟨lit "alice", name, lit "f", 1300⟩ peerKeyOfAlice ≠ []) :
    ∃ group accesses, Located ssl (Machine.run (step ssl) empty (shareIn name)) (locateIn name) name
      (toHex (lit "f")) (lit "f") group sharedEmpty accesses := by
  generalize hrun : Machine.run (step ssl) empty (aliceAndBob.take 3) = t at hstart
  obtain ⟨huser, hempty⟩ := hstart
  have hcalls : shareIn name = aliceAndBob.take 3 ++ (shareIn name).drop 3 := rfl
  have hall : Machine.run (step ssl) empty (shareIn name) = (t.setGroup name aliceGroup).setGroup name
      { aliceGroup with files := aliceGroup.files.insert (lit "f") sharedEmpty } := by
    rw [hcalls, Machine.run_append, hrun]
    exact run_share hname huser ((OrderedMap.isEmpty_iff _).mp hempty name)
  generalize hv : (t.setGroup name aliceGroup).setGroup name
    { aliceGroup with files := aliceGroup.files.insert (lit "f") sharedEmpty } = v at hall
  have huser' : v.userOf 7 = lit "alice" := by
    rw [← hv]
    exact huser
  rw [hall]
  obtain ⟨accesses, hl⟩ := @located_of_member ssl v (locateIn name) name (toHex (lit "f")) (lit "f")
    { aliceGroup with files := aliceGroup.files.insert (lit "f") sharedEmpty } sharedEmpty
    (Reachable.consistent ⟨_, hall⟩) (words_locateCommand hname (by decide)) (by rw [← hv]; simp [setGroup])
    (by rw [locateIn, huser']; simp [aliceGroup]) (fromHex_toHex _) (by simp) (by
      intro e he
      have hsingle : sharedEmpty.seeders.entries = [(lit "alice", ⟨aliceEndpoint, peerKeyOfAlice⟩)] := rfl
      rw [hsingle, List.mem_singleton] at he
      rw [he, locateIn, huser']
      exact hkey)
  exact ⟨_, accesses, hl⟩

end TrackerState

namespace TrackerService

/-- A name that fits the command that makes the group, but not twice into a frame. -/
def longName : Bytes := List.replicate 9000000 (chr 'g')

def longTicket : PeerTicket := ⟨lit "alice", longName, lit "f", 1300⟩

def digestOfLongTicket : Bytes := ofHex 32 0x6aa43aa042d5054b1d72a5f358a3821d1765a1ea3b9023ca5cd6806694c94e84

def longRecording : Recording := { recording with
  hmac := [((peerKeyOfAlice, lit "torrent-peer-ticket-v1|" ++ longTicket.encode), digestOfLongTicket)] }

def longRun : List Arrival := (shareIn longName).map Arrival.of

theorem length_longName : longName.length = 9000000 := List.length_replicate

theorem longName_word : longName ≠ [] ∧ ∀ b ∈ longName, isSpace b = false := by
  refine ⟨List.ne_nil_of_length_pos (by rw [length_longName]; decide), fun b hb => ?_⟩
  rw [List.eq_of_mem_replicate hb]
  decide

theorem length_message (session : UInt64) (command : Bytes) :
    (TrackerClient.message session command).length = 3 + (decimal session.toNat).length + command.length := by
  simp only [TrackerClient.message, List.length_append, show (lit "C\t").length = 2 from rfl,
    show (lit "\t").length = 1 from rfl]
  omega

theorem longTicket_key : PeerTicket.key longRecording.replay longTicket peerKeyOfAlice ≠ [] := by
  have hfit : fitsInt peerKeyOfAlice.length = true := by decide +kernel
  have hhmac := @Recording.hmac_of_lookup longRecording peerKeyOfAlice
    (lit "torrent-peer-ticket-v1|" ++ longTicket.encode) digestOfLongTicket List.lookup_cons_self (by decide +kernel)
  have hne : digestOfLongTicket ≠ [] := by decide +kernel
  rw [PeerTicket.key, hmacSha256, if_pos hfit, hhmac, Option.getD_some]
  exact hne

/-- All requests fit their frames, the download among them; its reply does not. -/
theorem meta_over_cap :
    (∀ a ∈ longRun, 28 + a.request.length ≤ MAX_FRAME) ∧
    28 + (Arrival.of (locateIn longName)).request.length ≤ MAX_FRAME ∧
    (lit "META ").isPrefixOf (TrackerState.apply longRecording.replay
      (Machine.run (serve longRecording.replay) .empty longRun) 7 (locateIn longName).commandLine
      (locateIn longName).context).2.response = true ∧
    MAX_FRAME < 28 + (serve longRecording.replay (Machine.run (serve longRecording.replay) .empty longRun)
      (Arrival.of (locateIn longName))).2.length := by
  have hname := length_longName
  have hcap : MAX_FRAME = 16777216 := rfl
  have hseven : (decimal (7 : UInt64).toNat).length = 1 := by decide +kernel
  have hstart : (Machine.run (step longRecording.replay) TrackerState.empty (aliceAndBob.take 3)).userOf 7 =
        lit "alice" ∧
      (Machine.run (step longRecording.replay) TrackerState.empty (aliceAndBob.take 3)).groups.isEmpty = true := by
    decide +kernel
  obtain ⟨group, accesses, hl⟩ := @located_shareIn longRecording.replay longName longName_word hstart longTicket_key
  have hrun : Machine.run (serve longRecording.replay) .empty longRun =
      Machine.run (step longRecording.replay) TrackerState.empty (shareIn longName) := run_serve_of _ _ _
  rw [hrun]
  generalize hs : Machine.run (step longRecording.replay) TrackerState.empty (shareIn longName) = s at *
  refine ⟨?_, ?_, ?_, ?_⟩
  · have hfirst : ∀ c ∈ aliceAndBob.take 3, 28 + (Arrival.of c).request.length ≤ MAX_FRAME := by decide +kernel
    intro a ha
    obtain ⟨c, hc, rfl⟩ := List.mem_map.mp ha
    rw [shareIn, List.mem_append] at hc
    rcases hc with hc | hc
    · exact hfirst c hc
    · rw [List.mem_cons, List.mem_singleton] at hc
      have hrest : (lit "f").length = 1 ∧ (decimal emptyFile.size.toNat).length = 1 ∧
          emptyFile.fullHash.length = 40 ∧ emptyFile.pieceHashList.length = 1 ∧ aliceEndpoint.ip.length = 8 ∧
          (decimal aliceEndpoint.port).length = 4 ∧ peerKeyOfAlice.length = 32 := by decide +kernel
      rcases hc with rfl | rfl
      · simp only [Arrival.of, length_message, hseven, List.length_append, hname, hcap,
          show (lit "create_group ").length = 13 from rfl]
        omega
      · simp only [Arrival.of, length_message, hseven, TrackerClient.shareCommand, List.length_append, length_toHex,
          hname, hcap, hrest, show (lit "upload_file ").length = 12 from rfl, show (lit " ").length = 1 from rfl]
        omega
  · simp only [Arrival.of, locateIn, length_message, hseven, TrackerClient.locateCommand, List.length_append,
      length_toHex, hname, hcap, show (lit "download_file ").length = 14 from rfl, show (lit " ").length = 1 from rfl,
      show (lit "f").length = 1 from rfl]
    omega
  · have hresponse := hl.hresponse
    rw [step] at hresponse
    rw [show (locateIn longName).session = 7 from rfl] at hresponse
    rw [hresponse]
    exact metaReply_isPrefixOf _ _
  · have hresponse := hl.length_response (Reachable.consistent ⟨_, hs⟩)
    have hlarge := @SharedFile.group_le_metaSize sharedEmpty (s.userOf 7) longName (lit "f") 1300 _ rfl
    calc MAX_FRAME < 2 * longName.length := by rw [hname]; decide
      _ ≤ sharedEmpty.metaSize ⟨s.userOf 7, longName, lit "f", 1300⟩ := hlarge
      _ = (step longRecording.replay s (locateIn longName)).2.response.length := hresponse.symm
      _ ≤ 28 + (serve longRecording.replay s (Arrival.of (locateIn longName))).2.length :=
        (response_le_serve _ _ _).trans (Nat.le_add_left _ _)

end TrackerService

end Example

end TorrentAtlas
