import TorrentAtlas.Locate
import TorrentAtlas.Download

/-!
# Renewing tickets

`seederAt` replaces every access by the last entry of the new reply that has the
same endpoint. The positions keep their endpoints whatever the tracker answers.
Two registrations may share an endpoint, and then only one of them is kept.
-/
namespace TorrentAtlas

open Encoding Crypto

/-- A loop that takes over every element with the right key ends with the last one. -/
theorem foldl_latest {α κ : Type} [DecidableEq κ] (key : α → κ) (a : α) (updates : List α) :
    updates.foldl (fun current update => if key update = key current then update else current) a =
      ((updates.filter (fun update => key update = key a)).getLast?).getD a := by
  induction updates generalizing a with
  | nil => rfl
  | cons u rest ih =>
    rw [List.foldl_cons, ih]
    by_cases h : key u = key a
    · rw [if_pos h, List.filter_cons_of_pos (by simpa using h), List.getLast?_cons, h]
      rfl
    · rw [if_neg h, List.filter_cons_of_neg (by simpa using h)]

namespace TrackerClient

/-- The seeders that `locate` stores, if it succeeds. -/
def located (session : UInt64) (reply : Option Bytes) : Option (List SeederAccess) :=
  match locate session reply with
  | .ok found => some found.2
  | .error _ => none

/-- An access that some `locate` has read. -/
def Read (a : SeederAccess) : Prop := ∃ session reply seeders, located session reply = some seeders ∧ a ∈ seeders

theorem located_eq_some {session : UInt64} {reply : Option Bytes} {seeders : List SeederAccess}
    (h : located session reply = some seeders) :
    ∃ text, seeders = (split text (chr ',')).filterMap SeederAccess.decode := by
  unfold located at h
  split at h
  · next found hfound =>
    obtain rfl := Option.some.inj h
    exact (locate_eq_ok hfound).2.2
  · simp at h

/-- No access that was read has a comma or a slash in its address. -/
theorem Read.clean {a : SeederAccess} (h : Read a) : chr ',' ∉ a.endpoint.ip ∧ chr '/' ∉ a.endpoint.ip := by
  obtain ⟨session, reply, seeders, hlocated, ha⟩ := h
  obtain ⟨text, rfl⟩ := located_eq_some hlocated
  rw [split_eq] at ha
  exact TrackerState.of_mem_readEntry ha

end TrackerClient

namespace Download

open TrackerClient

variable {d : Download} {index : Nat} {now : Int} {seeder : SeederAccess}

/-- The last entry of a reply that has this endpoint. -/
def lastAt (fresh : List SeederAccess) (endpoint : Endpoint) : Option SeederAccess :=
  (fresh.filter (fun a => a.endpoint = endpoint)).getLast?

theorem lastAt_eq_some {fresh : List SeederAccess} {endpoint : Endpoint} {a : SeederAccess}
    (h : lastAt fresh endpoint = some a) : a ∈ fresh ∧ a.endpoint = endpoint := by
  have hmem := List.mem_filter.mp (List.mem_of_getLast? h)
  exact ⟨hmem.1, by simpa using hmem.2⟩

theorem lastAt_isSome {fresh : List SeederAccess} {a : SeederAccess} (h : a ∈ fresh) :
    ∃ b, lastAt fresh a.endpoint = some b := by
  have hmem : a ∈ fresh.filter (fun b => b.endpoint = a.endpoint) := List.mem_filter.mpr ⟨h, by simp⟩
  exact ⟨_, List.getLast?_eq_some_getLast (List.ne_nil_of_mem hmem)⟩

/-- What a renewal makes of one access. -/
def renewed (fresh : List SeederAccess) (a : SeederAccess) : SeederAccess := (lastAt fresh a.endpoint).getD a

theorem renewed_endpoint (fresh : List SeederAccess) (a : SeederAccess) : (renewed fresh a).endpoint = a.endpoint := by
  unfold renewed
  cases h : lastAt fresh a.endpoint with
  | none => rfl
  | some b => exact (lastAt_eq_some h).2

theorem seederAt_none : d.seederAt index now none = d.seeders := by
  unfold seederAt
  cases d.seeders[index]? <;> rfl

theorem seederAt_renews (hindex : d.seeders[index]? = some seeder)
    (hexpires : seeder.expires - now < TICKET_MARGIN_SECONDS) (fresh : List SeederAccess) :
    d.seederAt index now (some fresh) = d.seeders.map (renewed fresh) := by
  simp only [seederAt, hindex, if_pos hexpires]
  exact List.map_congr_left fun a _ => foldl_latest SeederAccess.endpoint a fresh

/-- A renewal is by the entries of a reply, or it leaves everything as it is. -/
theorem seederAt_cases (d : Download) (index : Nat) (now : Int) (located : Option (List SeederAccess)) :
    d.seederAt index now located = d.seeders ∨
      ∃ fresh, located = some fresh ∧ d.seederAt index now located = d.seeders.map (renewed fresh) := by
  cases located with
  | none => exact Or.inl seederAt_none
  | some fresh =>
    cases hindex : d.seeders[index]? with
    | none => exact Or.inl (by simp [seederAt, hindex])
    | some seeder =>
      by_cases hexpires : seeder.expires - now < TICKET_MARGIN_SECONDS
      · exact Or.inr ⟨fresh, rfl, seederAt_renews hindex hexpires fresh⟩
      · exact Or.inl (by simp [seederAt, hindex, hexpires])

/-- Position by position the endpoints are never changed. -/
theorem seederAt_endpoints (d : Download) (index : Nat) (now : Int) (located : Option (List SeederAccess)) :
    (d.seederAt index now located).map SeederAccess.endpoint = d.seeders.map SeederAccess.endpoint := by
  rcases seederAt_cases d index now located with h | ⟨fresh, -, h⟩
  · rw [h]
  · rw [h, List.map_map]
    exact List.map_congr_left fun a _ => renewed_endpoint fresh a

/-- Renewing keeps to accesses that were read from the tracker. -/
theorem seederAt_read (hread : ∀ a ∈ d.seeders, Read a) (index : Nat) (now : Int) (session : UInt64)
    (reply : Option Bytes) : ∀ a ∈ d.seederAt index now (located session reply), Read a := by
  rcases seederAt_cases d index now (located session reply) with h | ⟨fresh, hlocated, h⟩
  · rwa [h]
  · rw [h]
    intro a ha
    obtain ⟨b, hb, rfl⟩ := List.mem_map.mp ha
    unfold renewed
    cases hl : lastAt fresh b.endpoint with
    | none => exact hread b hb
    | some c => exact ⟨session, reply, fresh, hlocated, (lastAt_eq_some hl).1⟩

variable {ssl : OpenSsl}

/-- A step of a download renews its accesses or leaves them alone. -/
theorem step_seeders (d : Download) (view : View) (action : Action) : (d.step ssl view action).1.seeders = d.seeders ∨
    ∃ index now located, (d.step ssl view action).1.seeders = d.seederAt index now located := by
  cases action with
  | cancel => exact Or.inl rfl
  | worker k input =>
    have hcases := workerStep_cases ssl d view.file k input
    simp only [step]
    generalize d.workerStep ssl view.file k input = result at hcases ⊢
    cases hcases with
    | answer => exact Or.inr ⟨_, _, _, answerStep_seeders _ _ _ _ _ _ _⟩
    | _ => exact Or.inl rfl
  | main input =>
    have hcases := mainStep_cases ssl d view input
    simp only [step]
    generalize d.mainStep ssl view input = result at hcases ⊢
    cases hcases with
    | prepare => exact Or.inl (prepareStep_frame _ _ _ _ _).2.1
    | @bitmap seeder =>
      rcases @bitmapStep_seeders d seeder input with hsame | ⟨now, located, -, -, hrenewed⟩
      · exact Or.inl hsame
      · exact Or.inr ⟨seeder, now, located, hrenewed⟩
    | _ => exact Or.inl rfl

/-- In a whole run each position keeps its endpoint, so `seederBitmaps` stays aligned with the seeders. -/
theorem run_endpoints {d d' : Download} (h : Machine.Reachable (fun (d : Download) (input : View × Action) =>
    d.step ssl input.1 input.2) d d') :
    d'.seeders.map SeederAccess.endpoint = d.seeders.map SeederAccess.endpoint := by
  refine @Machine.invariant _ (View × Action) _ _
    (fun d' : Download => d'.seeders.map SeederAccess.endpoint = d.seeders.map SeederAccess.endpoint) _ _ rfl ?_ h
  intro d' input hd'
  rcases step_seeders d' input.1 input.2 with hsame | ⟨index, now, located, hrenewed⟩
  · rw [hsame, hd']
  · rw [hrenewed, seederAt_endpoints, hd']

end Download

namespace TrackerState

open TrackerClient Download

/-- A registration that a file has. -/
def HasSeeder (file : SharedFile) (r : Seeder) : Prop := ∃ user, file.seeders.find user = some r

/-- Position by position, what was an access to a registration of the file is now its access under `ticket`. -/
structure KeepsPositions (ssl : OpenSsl) (file : SharedFile) (ticket : PeerTicket) (before after : List SeederAccess) :
    Prop where
  length : after.length = before.length
  position : ∀ (i : Nat) (earlier : PeerTicket) (r : Seeder), HasSeeder file r →
    before[i]? = some (accessFor ssl earlier r) → after[i]? = some (accessFor ssl ticket r)

/-- For each position that is an access to a registration, the reply's last entry with its endpoint is the entry of
that registration. -/
def LatestIsOwn (ssl : OpenSsl) (file : SharedFile) (ticket : PeerTicket) (before fresh : List SeederAccess) : Prop :=
  ∀ (i : Nat) (earlier : PeerTicket) (r : Seeder), HasSeeder file r → before[i]? = some (accessFor ssl earlier r) →
    lastAt fresh r.endpoint = some (accessFor ssl ticket r)

variable {ssl : OpenSsl} {s : TrackerState} {c : Call} {name hexFile fileName : Bytes} {group : Group}
  {file : SharedFile} {accesses : List SeederAccess}

/-- A registration whose address can be read has its entry in every reply. -/
theorem Located.mem_located (h : Located ssl s c name hexFile fileName group file accesses) (hs : s.Consistent)
    (h₀ : 0 ≤ c.context.now) (h₁ : c.context.now ≤ 2 ^ 62 - 300) {r : Seeder} (hr : HasSeeder file r)
    (hcomma : chr ',' ∉ r.endpoint.ip) (hslash : chr '/' ∉ r.endpoint.ip) (session : UInt64) :
    ∃ fresh, located session (some (rawReply ssl s c)) = some fresh ∧
      accessFor ssl ⟨s.userOf c.session, name, fileName, c.context.now + 300⟩ r ∈ fresh := by
  obtain ⟨user, hfind⟩ := hr
  have hmem : accessFor ssl ⟨s.userOf c.session, name, fileName, c.context.now + 300⟩ r ∈ accesses := by
    rw [h.accesses_eq]
    exact List.mem_map.mpr ⟨(user, r), (OrderedMap.mem_entries_iff _ _ _).mpr hfind, rfl⟩
  have hread := (h.issuable hs _ hmem).readEntry (h.decode_ticket hs h₀ h₁) hcomma hslash
  have hfresh : accessFor ssl ⟨s.userOf c.session, name, fileName, c.context.now + 300⟩ r ∈
      ((accesses.map SeederAccess.encode).insertionSort (· ≤ ·)).flatMap readEntry := by
    refine List.mem_flatMap.mpr ⟨_, (List.perm_insertionSort _ _).mem_iff.mpr (List.mem_map_of_mem hmem), ?_⟩
    rw [hread]
    exact List.mem_singleton_self _
  refine ⟨_, ?_, hfresh⟩
  rw [located, h.locate_eq hs]
  dsimp only
  rw [if_neg (by simpa using List.ne_nil_of_mem hfresh)]

/-- `seederAt` keeps the positions exactly if the last entry for each endpoint is the right one. If `locate` fails it
changes nothing. -/
theorem seederAt_keeps_positions_iff (ssl : OpenSsl) (d : Download) (hread : ∀ a ∈ d.seeders, Read a)
    (s : TrackerState) (c : Call) (name hexFile fileName : Bytes) (group : Group) (file : SharedFile)
    (hreach : Reachable ssl s) (hwords : words c.commandLine = [lit "download_file", name, hexFile])
    (hgroup : s.groups.find name = some group) (hname : fromHex hexFile = some fileName)
    (hfile : group.files.find fileName = some file)
    (hmeta : (lit "META ").isPrefixOf (step ssl s c).2.response = true)
    (h₀ : 0 ≤ c.context.now) (h₁ : c.context.now ≤ 2 ^ 62 - 300)
    (session : UInt64) (index : Nat) (now : Int) (seeder : SeederAccess) (hindex : d.seeders[index]? = some seeder)
    (hexpires : seeder.expires - now < TICKET_MARGIN_SECONDS) :
    (∀ reply, located session reply = none → d.seederAt index now (located session reply) = d.seeders) ∧
    (KeepsPositions ssl file ⟨s.userOf c.session, name, fileName, c.context.now + 300⟩ d.seeders
        (d.seederAt index now (located session (some (rawReply ssl s c)))) ↔
      LatestIsOwn ssl file ⟨s.userOf c.session, name, fileName, c.context.now + 300⟩ d.seeders
        ((located session (some (rawReply ssl s c))).getD [])) := by
  have hs := hreach.consistent
  obtain ⟨accesses, hl⟩ := located_of_meta_of hmeta hwords hname hgroup hfile
  -- At a position that counts, the reply has an entry of the registration.
  have hposition : ∀ (i : Nat) (earlier : PeerTicket) (r : Seeder), HasSeeder file r →
      d.seeders[i]? = some (accessFor ssl earlier r) → ∃ fresh, located session (some (rawReply ssl s c)) = some fresh ∧
        accessFor ssl ⟨s.userOf c.session, name, fileName, c.context.now + 300⟩ r ∈ fresh := by
    intro i earlier r hr hi
    obtain ⟨hcomma, hslash⟩ := (hread _ (List.mem_of_getElem? hi)).clean
    exact hl.mem_located hs h₀ h₁ hr hcomma hslash session
  refine ⟨fun reply hfailed => by rw [hfailed, seederAt_none], ?_, ?_⟩
  · intro hkeeps i earlier r hr hi
    obtain ⟨fresh, hlocated, hmem⟩ := hposition i earlier r hr hi
    have hafter := hkeeps.position i earlier r hr hi
    rw [hlocated, seederAt_renews hindex hexpires, List.getElem?_map, hi, Option.map_some] at hafter
    obtain ⟨b, hb⟩ := lastAt_isSome hmem
    have hb' : lastAt fresh r.endpoint = some b := hb
    have hrenewed : renewed fresh (accessFor ssl earlier r) = b := by
      change (lastAt fresh r.endpoint).getD _ = b
      rw [hb']
      rfl
    rw [hlocated, Option.getD_some, hb', ← hrenewed]
    exact hafter
  · intro hlatest
    have hlength := congrArg List.length
      (seederAt_endpoints d index now (located session (some (rawReply ssl s c))))
    refine ⟨by simpa using hlength, fun i earlier r hr hi => ?_⟩
    obtain ⟨fresh, hlocated, -⟩ := hposition i earlier r hr hi
    have hown := hlatest i earlier r hr hi
    rw [hlocated, Option.getD_some] at hown
    rw [hlocated, seederAt_renews hindex hexpires, List.getElem?_map, hi, Option.map_some]
    change some ((lastAt fresh r.endpoint).getD _) = _
    rw [hown]
    rfl

section Example

def peerKeyOfBob : Bytes := ofHex 32 0x404142434445464748494a4b4c4d4e4f505152535455565758595a5b5c5d5e5f

def renewals : Recording :=
  { recording with
    hmac := [((peerKeyOfAlice, lit "torrent-peer-ticket-v1|626f62.67.66.1300"), keyOf1300),
      ((peerKeyOfAlice, lit "torrent-peer-ticket-v1|626f62.67.66.1550"),
        ofHex 32 0x6e00f01c2589bc6cb5eae29aa428b76b784a90462a17f2e01ef938302bc87bf7),
      ((peerKeyOfBob, lit "torrent-peer-ticket-v1|626f62.67.66.1300"),
        ofHex 32 0xd66ae4b6c7e388d4c87a0456224f7591882f2f981177418849032857457cc8dd),
      ((peerKeyOfBob, lit "torrent-peer-ticket-v1|626f62.67.66.1550"),
        ofHex 32 0x3300688a90c2c530db5ce6957f9a6a9ec6797cad9a9e8d0fa8cb313364982af4)] }

/-- Bob has taken over the address of Alice, whose registration is still there. -/
def sharedAddress : List Call := aliceAndBob.take 8 ++ [
  ⟨9, lit "upload_file g 66 0 da39a3ee5e6b4b0d3255bfef95601890afd80709 - 10.0.0.1 6881 " ++ toHex peerKeyOfBob,
    ⟨[], 0, 1000⟩⟩]

def bobRenews : Call := ⟨9, lit "download_file g 66", ⟨[], 0, 1250⟩⟩

/-- The seeders Bob's client reads from the reply to `c`. -/
def bobReads (calls : List Call) (c : Call) : Option (List SeederAccess) :=
  located 9 (some (rawReply renewals.replay (Machine.run (step renewals.replay) empty calls) c))

/-- Bob's download of the file with the seeders he read at time 1000. -/
def bobDownloads (calls : List Call) : Download :=
  create (lit "g") (lit "f") (lit "out") ⟨0, [], []⟩ ((bobReads calls bobLocates).getD [])

def renewedTicket : PeerTicket := ⟨lit "bob", lit "g", lit "f", 1550⟩

def seederOfAlice : Seeder := ⟨⟨lit "10.0.0.1", 6881⟩, peerKeyOfAlice⟩

def seederOfBob : Seeder := ⟨⟨lit "10.0.0.1", 6881⟩, peerKeyOfBob⟩

/-- With Alice as the only seeder the position stays hers. -/
theorem seederAt_keeps_positions_alice : ∃ file,
    sharedAs (Machine.run (step renewals.replay) empty aliceAndBob) (lit "g") (lit "f") = some file ∧
      KeepsPositions renewals.replay file renewedTicket (bobDownloads aliceAndBob).seeders
        ((bobDownloads aliceAndBob).seederAt 0 1250 (bobReads aliceAndBob bobRenews)) := by
  -- One evaluation of the run answers for everything.
  have hrun : ((sharedAs (Machine.run (step renewals.replay) empty aliceAndBob) (lit "g") (lit "f")).any
        (fun file => file.seeders.entries.all (fun entry => entry.2 = seederOfAlice))) = true ∧
      renewedTicket = ⟨(Machine.run (step renewals.replay) empty aliceAndBob).userOf bobRenews.session, lit "g", lit "f",
        bobRenews.context.now + 300⟩ ∧
      bobReads aliceAndBob bobLocates = some [⟨⟨lit "10.0.0.1", 6881⟩, bobTicket.encode, keyOf1300⟩] ∧
      (lit "META ").isPrefixOf
        (step renewals.replay (Machine.run (step renewals.replay) empty aliceAndBob) bobRenews).2.response = true ∧
      lastAt ((bobReads aliceAndBob bobRenews).getD []) seederOfAlice.endpoint =
        some (accessFor renewals.replay renewedTicket seederOfAlice) := by decide +kernel
  obtain ⟨hstored, hticket, hread, hmeta, hown⟩ := hrun
  obtain ⟨file, hfile, hall⟩ := (Option.any_eq_true _ _).mp hstored
  obtain ⟨group, hgroup, hfile'⟩ := sharedAs_eq_some hfile
  have hlist : (bobDownloads aliceAndBob).seeders = [⟨⟨lit "10.0.0.1", 6881⟩, bobTicket.encode, keyOf1300⟩] := by
    rw [bobDownloads, hread]
    rfl
  refine ⟨file, hfile, ?_⟩
  rw [hticket] at hown ⊢
  refine (seederAt_keeps_positions_iff renewals.replay (bobDownloads aliceAndBob)
    (fun a ha => ⟨9, _, _, hread, hlist ▸ ha⟩) (Machine.run (step renewals.replay) empty aliceAndBob) bobRenews
    (lit "g") (lit "66") (lit "f") group file ⟨aliceAndBob, rfl⟩ (by decide +kernel) hgroup (by decide) hfile'
    hmeta (by decide) (by decide) 9 0 1250 _ (by rw [hlist]; rfl) (by decide +kernel)).2.mpr ?_
  intro i earlier r hr _
  obtain ⟨user, huser⟩ := hr
  have hr := List.all_eq_true.mp hall _ ((OrderedMap.mem_entries_iff _ _ _).mpr huser)
  obtain rfl : r = seederOfAlice := of_decide_eq_true hr
  exact hown

/-- Both positions become Alice's. -/
theorem seederAt_shared_address : Reachable renewals.replay (Machine.run (step renewals.replay) empty sharedAddress) ∧
    (lit "META ").isPrefixOf
      (step renewals.replay (Machine.run (step renewals.replay) empty sharedAddress) bobRenews).2.response = true ∧
    ∃ file, sharedAs (Machine.run (step renewals.replay) empty sharedAddress) (lit "g") (lit "f") = some file ∧
      ¬ KeepsPositions renewals.replay file renewedTicket (bobDownloads sharedAddress).seeders
        ((bobDownloads sharedAddress).seederAt 0 1250 (bobReads sharedAddress bobRenews)) := by
  have hrun : ((sharedAs (Machine.run (step renewals.replay) empty sharedAddress) (lit "g") (lit "f")).any
        (fun file => file.seeders.find (lit "bob") = some seederOfBob)) = true ∧
      (lit "META ").isPrefixOf
        (step renewals.replay (Machine.run (step renewals.replay) empty sharedAddress) bobRenews).2.response = true ∧
      (bobDownloads sharedAddress).seeders[1]? = some (accessFor renewals.replay bobTicket seederOfBob) ∧
      ((bobDownloads sharedAddress).seederAt 0 1250 (bobReads sharedAddress bobRenews))[1]? ≠
        some (accessFor renewals.replay renewedTicket seederOfBob) := by decide +kernel
  obtain ⟨hstored, hmeta, hbefore, hafter⟩ := hrun
  obtain ⟨file, hfile, hbob⟩ := (Option.any_eq_true _ _).mp hstored
  refine ⟨⟨sharedAddress, rfl⟩, hmeta, file, hfile, fun hkeeps => hafter ?_⟩
  exact hkeeps.position 1 bobTicket seederOfBob ⟨lit "bob", of_decide_eq_true hbob⟩ hbefore

end Example

end TrackerState

end TorrentAtlas
