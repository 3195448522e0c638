import TorrentAtlas.TrackerInvariant
import TorrentAtlas.TrackerClient
import TorrentAtlas.Revocation

/-!
# What a client reads in a `META` reply

The reply nests blanks, commas, slashes and dots around fields that other users
supplied. Every field but one is made of characters that exclude the outer
delimiters; the address is checked as a C string only, so bytes after a NUL are
free. The reply reads back exactly when no address makes use of that.
-/
namespace TorrentAtlas

open Encoding Crypto

namespace SeederAccess

/-- An entry that decodes names an address without slashes, taken from its own text. -/
theorem decode_eq_some {text : Bytes} {a : SeederAccess} (h : decode text = some a) :
    chr '/' ∉ a.endpoint.ip ∧ ∀ b ∈ a.endpoint.ip, b ∈ text := by
  unfold decode at h
  split at h
  · next address ticket hexKey hsplit =>
    split at h
    · next endpoint _ key hendpoint _ _ =>
      split at h
      · simp at h
      · cases h
        obtain ⟨-, port, -, haddress⟩ := Endpoint.parse_eq_some hendpoint
        rw [split_eq] at hsplit
        have hfield : address ∈ text.splitOn (chr '/') := by simp [hsplit]
        have hmem : ∀ b ∈ endpoint.ip, b ∈ address := by
          intro b hb
          rw [haddress]
          exact List.mem_append_left _ hb
        exact ⟨fun hs => Delimited.not_mem_of_mem_splitOn hfield (hmem _ hs),
          fun b hb => Delimited.mem_of_mem_splitOn hfield (hmem b hb)⟩
    · simp at h
  · simp at h

/-- A well-formed access without a slash in its address is read back as it is. -/
theorem decode_encode {a : SeederAccess} {ticket : PeerTicket} (hendpoint : a.endpoint.WellFormed)
    (hslash : chr '/' ∉ a.endpoint.ip) (hticket : a.ticket = ticket.encode)
    (hdecode : PeerTicket.decode ticket.encode = some ticket) (hkey : a.key.length = 32) :
    decode a.encode = some a := by
  have hsplit : split a.encode (chr '/') = [a.endpoint.toString, a.ticket, toHex a.key] := by
    rw [split_eq, Delimited.splitOn_eq_iff]
    refine ⟨by simp, ?_, ?_⟩
    · simp only [List.mem_cons, List.not_mem_nil, or_false, forall_eq_or_imp, forall_eq]
      refine ⟨?_, ?_, not_mem_toHex (by decide) _⟩
      · simp only [Endpoint.toString, List.mem_append, not_or]
        exact ⟨⟨hslash, by decide⟩, not_mem_decimal (by decide) _⟩
      · rw [hticket]
        intro hm
        rcases PeerTicket.mem_encode hm with h | h | h | h <;> exact absurd h (by decide)
    · simp [encode, List.intercalate_cons_cons, lit, chr]
  simp only [decode, hsplit, Endpoint.parse_toString hendpoint, hticket, hdecode, fromHex_toHex, hkey, ne_eq,
    not_true_eq_false, if_false]
  rw [← hticket]

/-- The characters of an access, apart from those of its address. -/
theorem mem_encode {a : SeederAccess} {ticket : PeerTicket} (hticket : a.ticket = ticket.encode) {b : UInt8}
    (hb : b ∈ a.encode) : b ∈ a.endpoint.ip ∨ isXDigit b = true ∨ isDigit b = true ∨
      b ∈ [chr ':', chr '/', chr '.', chr '-'] := by
  have hlit : ∀ {c : Char}, b ∈ lit (String.singleton c) → b = chr c := by
    intro c hc
    simpa [lit, chr] using hc
  simp only [encode, Endpoint.toString, List.mem_append, hticket] at hb
  rcases hb with ((((((h | h) | h) | h) | h) | h) | h)
  · exact Or.inl h
  · exact Or.inr (Or.inr (Or.inr (by simp [hlit (c := ':') h])))
  · exact Or.inr (Or.inr (Or.inl (isDigit_of_mem_decimal h)))
  · exact Or.inr (Or.inr (Or.inr (by simp [hlit (c := '/') h])))
  · rcases PeerTicket.mem_encode h with h | h | h | h
    · exact Or.inr (Or.inl h)
    · exact Or.inr (Or.inr (Or.inl h))
    · exact Or.inr (Or.inr (Or.inr (by simp [h])))
    · exact Or.inr (Or.inr (Or.inr (by simp [h])))
  · exact Or.inr (Or.inr (Or.inr (by simp [hlit (c := '/') h])))
  · exact Or.inr (Or.inl (isXDigit_of_mem_toHex h))

end SeederAccess

namespace TrackerState

/-- The raw text a client gets back for a call. -/
def rawReply (ssl : OpenSsl) (s : TrackerState) (c : Call) : Bytes :=
  (step ssl s c).2.response ++ lit "\t" ++ decimal (step ssl s c).2.session.toNat

/-- The access a downloader needs for one registered seeder. -/
def accessFor (ssl : OpenSsl) (ticket : PeerTicket) (seeder : Seeder) : SeederAccess :=
  ⟨seeder.endpoint, ticket.encode, hmacSha256 ssl seeder.peerKey (lit "torrent-peer-ticket-v1|" ++ ticket.encode)⟩

/-- `locate` finds the stored metadata and, in some order, one access for each registered seeder. -/
def LocatesExactly (ssl : OpenSsl) (s : TrackerState) (c : Call) (file : SharedFile) (ticket : PeerTicket)
    (session : UInt64) : Prop :=
  ∃ seeders, TrackerClient.locate session (some (rawReply ssl s c)) = .ok (file.metadata, seeders) ∧
    seeders.Perm (file.seeders.entries.map (fun entry => accessFor ssl ticket entry.2))

variable {ssl : OpenSsl} {s : TrackerState} {c : Call} {name hexFile fileName : Bytes} {group : Group}
  {file : SharedFile} {accesses : List SeederAccess}

/-- What is known about each access of a reply in a consistent state. -/
structure Issuable (ticket : PeerTicket) (a : SeederAccess) : Prop where
  endpoint : a.endpoint.WellFormed
  ip_blank : ∀ b ∈ a.endpoint.ip, isSpace b = false
  ticket_eq : a.ticket = ticket.encode
  key : a.key.length = 32

theorem Located.accesses_eq (h : Located ssl s c name hexFile fileName group file accesses) :
    accesses = file.seeders.entries.map
      (fun entry => accessFor ssl ⟨s.userOf c.session, name, fileName, c.context.now + 300⟩ entry.2) :=
  (issueAccesses_eq_some h.hissued).1

theorem Located.issuable (h : Located ssl s c name hexFile fileName group file accesses) (hs : s.Consistent) :
    ∀ a ∈ accesses, Issuable ⟨s.userOf c.session, name, fileName, c.context.now + 300⟩ a := by
  intro a ha
  have hkey := (issueAccesses_eq_some h.hissued).2 a ha
  rw [h.accesses_eq] at ha
  obtain ⟨⟨user, seeder⟩, hentry, rfl⟩ := List.mem_map.mp ha
  have hseeder := ((hs.group _ _ h.hgroup).file _ _ h.hfile).seeder user seeder
    ((OrderedMap.mem_entries_iff _ _ _).mp hentry)
  obtain ⟨text, htext⟩ := hseeder.endpoint
  exact ⟨(Endpoint.parse_eq_some htext).1, hseeder.ip_blank, rfl, hmacSha256_length ssl _ _ hkey⟩

theorem Located.decode_ticket (h : Located ssl s c name hexFile fileName group file accesses) (hs : s.Consistent)
    (h₀ : 0 ≤ c.context.now) (h₁ : c.context.now ≤ 2 ^ 62 - 300) :
    PeerTicket.decode (PeerTicket.encode ⟨s.userOf c.session, name, fileName, c.context.now + 300⟩) =
      some ⟨s.userOf c.session, name, fileName, c.context.now + 300⟩ := by
  refine PeerTicket.decode_encode h.huser ?_ ?_ ?_ ?_
  · exact @word_ne_nil c.commandLine _ (by rw [h.hwords]; simp)
  · exact ((hs.group _ _ h.hgroup).file _ _ h.hfile).name
  · change 0 ≤ c.context.now + 300
    omega
  · change c.context.now + 300 ≤ 2 ^ 62
    omega

theorem Issuable.blank {ticket : PeerTicket} {a : SeederAccess} (h : Issuable ticket a) :
    ∀ b ∈ a.encode, isSpace b = false := by
  intro b hb
  rcases SeederAccess.mem_encode h.ticket_eq hb with hb | hb | hb | hb
  · exact h.ip_blank b hb
  · exact TrackerClient.isSpace_of_isXDigit hb
  · exact TrackerClient.isSpace_of_isDigit hb
  · have hmarks : ∀ b ∈ [chr ':', chr '/', chr '.', chr '-'], isSpace b = false := by decide +kernel
    exact hmarks b hb

theorem Issuable.comma {ticket : PeerTicket} {a : SeederAccess} (h : Issuable ticket a)
    (hip : chr ',' ∉ a.endpoint.ip) : chr ',' ∉ a.encode := by
  intro hb
  rcases SeederAccess.mem_encode h.ticket_eq hb with hb | hb | hb | hb
  · exact hip hb
  · exact absurd hb (by decide)
  · exact absurd hb (by decide)
  · exact absurd hb (by decide)

/-- The seeders `locate` reads from the reply, entry by entry. -/
def readEntry (text : Bytes) : List SeederAccess := (text.splitOn (chr ',')).filterMap SeederAccess.decode

theorem Issuable.readEntry {ticket : PeerTicket} {a : SeederAccess} (h : Issuable ticket a)
    (hdecode : PeerTicket.decode ticket.encode = some ticket) (hcomma : chr ',' ∉ a.endpoint.ip)
    (hslash : chr '/' ∉ a.endpoint.ip) : TrackerState.readEntry a.encode = [a] := by
  rw [TrackerState.readEntry, List.splitOn_eq_singleton (h.comma hcomma)]
  simp [SeederAccess.decode_encode h.endpoint hslash h.ticket_eq hdecode h.key]

/-- No entry yields an address with a comma or a slash. -/
theorem of_mem_readEntry {text : Bytes} {a : SeederAccess} (h : a ∈ readEntry text) :
    chr ',' ∉ a.endpoint.ip ∧ chr '/' ∉ a.endpoint.ip := by
  obtain ⟨field, hfield, hdecode⟩ := List.mem_filterMap.mp h
  obtain ⟨hslash, hmem⟩ := SeederAccess.decode_eq_some hdecode
  exact ⟨fun hc => Delimited.not_mem_of_mem_splitOn hfield (hmem _ hc), hslash⟩

theorem Located.locate_eq (h : Located ssl s c name hexFile fileName group file accesses) (hs : s.Consistent)
    (session : UInt64) : TrackerClient.locate session (some (rawReply ssl s c)) =
      let seeders := ((accesses.map SeederAccess.encode).insertionSort (· ≤ ·)).flatMap readEntry
      if seeders.isEmpty then .error (lit "ERR no valid peer endpoints") else .ok (file.metadata, seeders) := by
  have hfile := (hs.group _ _ h.hgroup).file _ _ h.hfile
  have hne : accesses ≠ [] := by
    obtain ⟨user, seeder, hseeder⟩ := hfile.seeded
    rw [h.accesses_eq]
    exact List.ne_nil_of_mem (List.mem_map_of_mem ((OrderedMap.mem_entries_iff _ _ _).mpr hseeder))
  rw [rawReply, h.hresponse]
  exact TrackerClient.locate_metaReply _ _ hfile.valid (fun a ha => (h.issuable hs a ha).blank) hne

/-- A reply reads back as the tracker meant it exactly when no seeder of the file has a comma or a
slash in its address. -/
theorem locate_exact_iff (ssl : OpenSsl) (s : TrackerState) (c : Call) (name hexFile fileName : Bytes)
    (group : Group) (file : SharedFile) (session : UInt64) (hreach : Reachable ssl s)
    (hwords : words c.commandLine = [lit "download_file", name, hexFile])
    (hgroup : s.groups.find name = some group) (hname : fromHex hexFile = some fileName)
    (hfile : group.files.find fileName = some file)
    (hmeta : (lit "META ").isPrefixOf (step ssl s c).2.response = true)
    (h₀ : 0 ≤ c.context.now) (h₁ : c.context.now ≤ 2 ^ 62 - 300) :
    LocatesExactly ssl s c file ⟨s.userOf c.session, name, fileName, c.context.now + 300⟩ session ↔
      ∀ user seeder, file.seeders.find user = some seeder →
        chr ',' ∉ seeder.endpoint.ip ∧ chr '/' ∉ seeder.endpoint.ip := by
  have hs := hreach.consistent
  obtain ⟨accesses, hl⟩ := located_of_meta_of hmeta hwords hname hgroup hfile
  unfold LocatesExactly
  rw [hl.locate_eq hs]
  constructor
  · rintro ⟨seeders, hok, hperm⟩ user seeder hseeder
    have hentry : accessFor ssl ⟨s.userOf c.session, name, fileName, c.context.now + 300⟩ seeder ∈ seeders :=
      hperm.mem_iff.mpr (List.mem_map.mpr ⟨(user, seeder), (OrderedMap.mem_entries_iff _ _ _).mpr hseeder, rfl⟩)
    dsimp only at hok
    split at hok
    · simp at hok
    · simp only [Except.ok.injEq, Prod.mk.injEq, true_and] at hok
      rw [← hok] at hentry
      obtain ⟨text, -, hread⟩ := List.mem_flatMap.mp hentry
      exact of_mem_readEntry hread
  · intro hclean
    have hread : ∀ a ∈ accesses, readEntry a.encode = [a] := by
      intro a ha
      have hissuable := hl.issuable hs a ha
      rw [hl.accesses_eq] at ha
      obtain ⟨⟨user, seeder⟩, hentry, rfl⟩ := List.mem_map.mp ha
      obtain ⟨hcomma, hslash⟩ := hclean user seeder ((OrderedMap.mem_entries_iff _ _ _).mp hentry)
      exact hissuable.readEntry (hl.decode_ticket hs h₀ h₁) hcomma hslash
    have hperm : (((accesses.map SeederAccess.encode).insertionSort (· ≤ ·)).flatMap readEntry).Perm accesses := by
      refine ((List.perm_insertionSort _ _).flatMap_right _).trans ?_
      rw [List.flatMap_map, List.flatMap_congr hread]
      simp
    have hne : ((accesses.map SeederAccess.encode).insertionSort (· ≤ ·)).flatMap readEntry ≠ [] := by
      intro hnil
      rw [hnil] at hperm
      obtain ⟨user, seeder, hseeder⟩ := ((hs.group _ _ hl.hgroup).file _ _ hl.hfile).seeded
      rw [hl.accesses_eq] at hperm
      have hmem := hperm.symm.mem_iff.mp
        (List.mem_map_of_mem ((OrderedMap.mem_entries_iff _ _ _).mpr hseeder))
      simp at hmem
    refine ⟨_, by rw [if_neg (by simpa using hne)], ?_⟩
    rw [← hl.accesses_eq]
    exact hperm

section Example

/-- Bob's download in the run of `aliceAndBob`. -/
def bobLocates : Call := ⟨9, lit "download_file g 66", ⟨[], 0, 1000⟩⟩

def bobTicket : PeerTicket := ⟨lit "bob", lit "g", lit "f", 1300⟩

/-- Evaluates what a state shares under a name, for concrete runs. -/
def sharedAs (s : TrackerState) (name fileName : Bytes) : Option SharedFile :=
  (s.findGroup name).bind (fun group => group.files.find fileName)

theorem sharedAs_eq_some {s : TrackerState} {name fileName : Bytes} {file : SharedFile}
    (h : sharedAs s name fileName = some file) :
    ∃ group, s.groups.find name = some group ∧ group.files.find fileName = some file :=
  Option.bind_eq_some_iff.mp h

/-- Bob reads Alice's address as she gave it. -/
theorem locate_exact_alice : ∃ file, sharedAs (Machine.run (step recording.replay) empty aliceAndBob) (lit "g")
    (lit "f") = some file ∧ LocatesExactly recording.replay (Machine.run (step recording.replay) empty aliceAndBob)
      bobLocates file bobTicket 0 := by
  -- One evaluation of the run answers for everything.
  have hrun : ((sharedAs (Machine.run (step recording.replay) empty aliceAndBob) (lit "g") (lit "f")).any
        (fun file => file.seeders.entries.all (fun entry => entry.2.endpoint.ip = lit "10.0.0.1"))) = true ∧
      bobTicket = ⟨(Machine.run (step recording.replay) empty aliceAndBob).userOf bobLocates.session, lit "g", lit "f",
        bobLocates.context.now + 300⟩ ∧
      (lit "META ").isPrefixOf
        (step recording.replay (Machine.run (step recording.replay) empty aliceAndBob) bobLocates).2.response = true := by
    decide +kernel
  obtain ⟨hip, hticket, hmeta⟩ := hrun
  obtain ⟨file, hfile, hall⟩ := (Option.any_eq_true _ _).mp hip
  obtain ⟨group, hgroup, hfile'⟩ := sharedAs_eq_some hfile
  refine ⟨file, hfile, ?_⟩
  rw [hticket]
  refine (locate_exact_iff recording.replay (Machine.run (step recording.replay) empty aliceAndBob) bobLocates
    (lit "g") (lit "66") (lit "f") group file 0 ⟨aliceAndBob, rfl⟩ (by decide +kernel) hgroup (by decide) hfile'
    hmeta (by decide) (by decide)).mpr ?_
  intro user seeder hseeder
  have hmem := List.all_eq_true.mp hall _ ((OrderedMap.mem_entries_iff _ _ _).mpr hseeder)
  simp only [decide_eq_true_eq] at hmem
  rw [hmem]
  decide +kernel

/-- Alice registers an address that continues after a NUL byte. -/
def hostileRun : List Call := aliceAndBob.take 7 ++ [
  ⟨7, lit "upload_file g 66 0 da39a3ee5e6b4b0d3255bfef95601890afd80709 - 10.0.0.1" ++ 0 :: lit ",10.0.0.2 6881 " ++
    toHex peerKeyOfAlice, ⟨[], 0, 1000⟩⟩]

/-- The tracker accepts the address, and Bob reads a seeder that nobody registered. -/
theorem locate_hostile_address : Reachable recording.replay (Machine.run (step recording.replay) empty hostileRun) ∧
    (lit "META ").isPrefixOf
      (step recording.replay (Machine.run (step recording.replay) empty hostileRun) bobLocates).2.response = true ∧
    ∃ file, sharedAs (Machine.run (step recording.replay) empty hostileRun) (lit "g") (lit "f") = some file ∧
      ¬ LocatesExactly recording.replay (Machine.run (step recording.replay) empty hostileRun) bobLocates file
        bobTicket 0 := by
  have hrun : (TrackerClient.locate 0 (some (rawReply recording.replay
        (Machine.run (step recording.replay) empty hostileRun) bobLocates))).map
          (fun found => found.2.map (·.endpoint)) = .ok [⟨lit "10.0.0.2", 6881⟩] ∧
      ((sharedAs (Machine.run (step recording.replay) empty hostileRun) (lit "g") (lit "f")).any (fun file =>
        file.seeders.entries.any (fun entry =>
          entry.2.endpoint.ip = lit "10.0.0.1" ++ 0 :: lit ",10.0.0.2"))) = true ∧
      (lit "META ").isPrefixOf
        (step recording.replay (Machine.run (step recording.replay) empty hostileRun) bobLocates).2.response = true := by
    decide +kernel
  obtain ⟨hread, hstored, hmeta⟩ := hrun
  obtain ⟨file, hfile, hany⟩ := (Option.any_eq_true _ _).mp hstored
  refine ⟨⟨hostileRun, rfl⟩, hmeta, file, hfile, ?_⟩
  rintro ⟨seeders, hok, hperm⟩
  obtain ⟨entry, hentry, hip⟩ := List.any_eq_true.mp hany
  simp only [decide_eq_true_eq] at hip
  have hmem := hperm.mem_iff.mpr (List.mem_map_of_mem hentry)
  rw [hok] at hread
  simp only [Except.map, Except.ok.injEq] at hread
  have hendpoint := List.mem_map_of_mem (f := SeederAccess.endpoint) hmem
  rw [hread] at hendpoint
  simp only [List.mem_singleton, accessFor] at hendpoint
  rw [hendpoint] at hip
  exact absurd hip (by decide)

end Example

end TrackerState

end TorrentAtlas
