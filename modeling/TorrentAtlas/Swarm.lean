import TorrentAtlas.PeerTransfer
import TorrentAtlas.Renewal

/-!
# From a share to the file at its destination

The tracker, the clients that seed a file, and a download of it by a member of the group. The
tracker runs anybody's commands between the steps of the download and answers its requests for
new tickets; the seeders answer over byte streams. With one seeder for each piece the file arrives.
-/
namespace TorrentAtlas

open Encoding Crypto PieceFile FileMetadata PeerProtocol TrackerState Download

/-- A file in a group, the user that fetches it, and for each piece the registration of a client that has it. -/
structure Sharing where
  group : Bytes
  name : Bytes
  contents : Bytes
  user : Bytes
  keeper : Nat → Seeder

/-- What a seeder's connection is given: its table and disk, both clocks, both draws of randomness, both transfers. -/
structure Connection where
  files : SharedFiles
  file : LocalFile
  disk : PeerServer.Disk
  clock : Int
  stamp : Int
  random : Bytes
  replyRandom : Bytes
  io : List Transfer
  io' : List Transfer

/-- A request to the seeder at a position, with what comes back and what a renewal of tickets brought before. -/
structure Exchange where
  index : Nat
  operation : Bytes
  piece : Nat
  now : Int
  located : Option (List SeederAccess)
  outcome : Outcome
  deriving DecidableEq, Repr

namespace Sharing

variable (w : Sharing) (ssl : OpenSsl)

def metadata : FileMetadata := hash ssl w.contents

def ticket (expires : Int) : PeerTicket := ⟨w.user, w.group, w.name, expires⟩

/-- The user asks for the file and is answered; every keeper is registered, and no other registration has its address
or an address that comes apart. -/
structure Answers (t : TrackerState) (c : Call) (file : SharedFile) : Prop where
  line : c.commandLine = TrackerClient.locateCommand w.group w.name
  user : t.userOf c.session = w.user
  stored : sharedAs t w.group w.name = some file
  replied : (lit "META ").isPrefixOf (TrackerState.step ssl t c).2.response = true
  clock : 0 ≤ c.context.now ∧ c.context.now ≤ 2 ^ 62 - 300
  registered : ∀ i < (w.metadata ssl).pieceCount, HasSeeder file (w.keeper i)
  apart : ∀ r, HasSeeder file r → ∀ i < (w.metadata ssl).pieceCount, r.endpoint = (w.keeper i).endpoint → r = w.keeper i
  clean : ∀ r, HasSeeder file r → chr ',' ∉ r.endpoint.ip ∧ chr '/' ∉ r.endpoint.ip

/-- An access that `r` accepts until `expires`. -/
structure Admits (a : SeederAccess) (r : Seeder) (expires : Int) : Prop where
  access : a = accessFor ssl (w.ticket expires) r
  decodes : PeerTicket.decode (w.ticket expires).encode = some (w.ticket expires)
  key : a.key.length = 32

/-- A renewal, by a tracker whose clock is at most four minutes behind. -/
def Renews (t : TrackerState) (now : Int) (located : Option (List SeederAccess)) : Prop :=
  ∃ c session file, w.Answers ssl t c file ∧ now ≤ c.context.now + (PeerTicket.LIFETIME_SECONDS - TICKET_MARGIN_SECONDS) ∧
    located = TrackerClient.located session (some (rawReply ssl t c))

/-- The seeder `r` has the pieces it keeps, its clock is less than the margin ahead, no transfer fails, and this is what
the request brings. -/
structure Brings (n : Connection) (r : Seeder) (access : SeederAccess) (x : Exchange) : Prop where
  shared : n.files.find w.group w.name = some n.file
  metadata : n.file.metadata = w.metadata ssl
  stores : Stores ssl n.file n.disk w.contents
  kept : ∀ i < (w.metadata ssl).pieceCount, (w.keeper i).endpoint = r.endpoint → n.file.available[i]? = some true
  clock : n.clock < x.now + TICKET_MARGIN_SECONDS
  stamp : 0 ≤ n.stamp ∧ |n.stamp - n.clock| ≤ 300
  random : n.random.length = NONCE_SIZE ∧ n.replyRandom.length = NONCE_SIZE
  calm : .failed ∉ n.io ∧ .failed ∉ n.io'
  talk : Talk.Together Socket.transport
    (PeerClient.request ssl access true n.stamp n.random x.operation x.piece)
    (PeerServer.connection ssl r.peerKey n.files n.disk n.clock n.replyRandom) n.io n.io' x.outcome ()

/-- An exchange of the download with whoever is at that address: a ticket about to expire has been renewed, at least if
it is for a keeper, and a keeper answers. -/
def Supplies (t : TrackerState) (d : Download) (x : Exchange) : Prop :=
  (∀ before, d.seeders[x.index]? = some before → before.expires - x.now < TICKET_MARGIN_SECONDS →
    w.Renews ssl t x.now x.located ∨
      x.located = none ∧ ∀ i < (w.metadata ssl).pieceCount, before.endpoint ≠ (w.keeper i).endpoint) ∧
  ∀ access, (d.seederAt x.index x.now x.located)[x.index]? = some access →
    ∀ i < (w.metadata ssl).pieceCount, access.endpoint = (w.keeper i).endpoint →
      ∃ n, w.Brings ssl n (w.keeper i) access x

end Sharing

namespace Download

/-- The exchange with a seeder that a step stands for. -/
def exchange (d : Download) : Action → Option Exchange
  | .main (.reply now located outcome) =>
    match d.phase with
    | .asking seeder => some ⟨seeder, lit "BITMAP", 0, now, located, outcome⟩
    | _ => none
  | .worker k (.reply now located outcome) =>
    match d.workers[k]? with
    | some (.requesting piece _ seeder) => some ⟨seeder, lit "GET", piece, now, located, outcome⟩
    | _ => none
  | _ => none

/-- Nobody cancels, and no call on the files fails. -/
def Action.isCalm : Action → Bool
  | .cancel => false
  | .main input => input ≠ .fail && input ≠ .io .failed
  | .worker _ input => input ≠ .io .failed

/-- A step renews the accesses only in an exchange. -/
theorem step_exchange (ssl : OpenSsl) (d : Download) (view : View) (action : Action) :
    (d.step ssl view action).1.seeders = d.seeders ∨
      ∃ x, d.exchange action = some x ∧ (d.step ssl view action).1.seeders = d.seederAt x.index x.now x.located := by
  cases action with
  | cancel => exact Or.inl rfl
  | worker k input =>
    have hcases := workerStep_cases ssl d view.file k input
    simp only [step]
    generalize d.workerStep ssl view.file k input = result at hcases ⊢
    cases hcases with
    | answer hw => exact Or.inr ⟨_, by rw [exchange, hw], answerStep_seeders _ _ _ _ _ _ _⟩
    | _ => exact Or.inl rfl
  | main input =>
    have hcases := mainStep_cases ssl d view input
    simp only [step]
    generalize d.mainStep ssl view input = result at hcases ⊢
    cases hcases with
    | prepare => exact Or.inl (prepareStep_frame _ _ _ _ _).2.1
    | @bitmap seeder hphase =>
      rcases @bitmapStep_seeders d seeder input with hsame | ⟨now, located, outcome, rfl, hrenewed⟩
      · exact Or.inl hsame
      · exact Or.inr ⟨_, by rw [exchange, hphase], hrenewed⟩
    | _ => exact Or.inl rfl

end Download

namespace TrackerState

variable {ssl : OpenSsl} {s : TrackerState} {c : Call} {name hexFile fileName : Bytes} {group : Group}
  {file : SharedFile} {accesses : List SeederAccess}

/-- Where every address can be read, what a client reads are the accesses that were issued. -/
theorem Located.reads (h : Located ssl s c name hexFile fileName group file accesses) (hs : s.Consistent)
    (h₀ : 0 ≤ c.context.now) (h₁ : c.context.now ≤ 2 ^ 62 - 300)
    (hclean : ∀ r, HasSeeder file r → chr ',' ∉ r.endpoint.ip ∧ chr '/' ∉ r.endpoint.ip) (session : UInt64) :
    ∃ fresh, TrackerClient.locate session (some (rawReply ssl s c)) = .ok (file.metadata, fresh) ∧
      fresh.Perm accesses := by
  have hread : ∀ a ∈ accesses, readEntry a.encode = [a] := by
    intro a ha
    have hissuable := h.issuable hs a ha
    rw [h.accesses_eq] at ha
    obtain ⟨⟨user, seeder⟩, hentry, rfl⟩ := List.mem_map.mp ha
    obtain ⟨hcomma, hslash⟩ := hclean seeder ⟨user, (OrderedMap.mem_entries_iff _ _ _).mp hentry⟩
    exact hissuable.readEntry (h.decode_ticket hs h₀ h₁) hcomma hslash
  have hperm : (((accesses.map SeederAccess.encode).insertionSort (· ≤ ·)).flatMap readEntry).Perm accesses := by
    refine ((List.perm_insertionSort _ _).flatMap_right _).trans ?_
    rw [List.flatMap_map, List.flatMap_congr hread]
    simp
  obtain ⟨user, seeder, hseeder⟩ := ((hs.group _ _ h.hgroup).file _ _ h.hfile).seeded
  have hmem : accessFor ssl ⟨s.userOf c.session, name, fileName, c.context.now + 300⟩ seeder ∈ accesses := by
    rw [h.accesses_eq]
    exact List.mem_map_of_mem ((OrderedMap.mem_entries_iff _ _ _).mpr hseeder)
  refine ⟨_, ?_, hperm⟩
  rw [h.locate_eq hs]
  dsimp only
  rw [if_neg (by simpa using List.ne_nil_of_mem (hperm.mem_iff.mpr hmem))]

end TrackerState

namespace Sharing

variable {w : Sharing} {ssl : OpenSsl} {t : TrackerState} {c : Call} {file : SharedFile} {a access : SeederAccess}
  {r : Seeder} {expires : Int} {d : Download} {x : Exchange} {i p : Nat}

theorem Admits.expires_eq (h : w.Admits ssl a r expires) : a.expires = expires := by
  have hticket : a.ticket = (w.ticket expires).encode := by
    rw [h.access]
    rfl
  rw [SeederAccess.expires, hticket, h.decodes]
  rfl

theorem Admits.endpoint_eq (h : w.Admits ssl a r expires) : a.endpoint = r.endpoint := by
  rw [h.access]
  rfl

/-- The reply to a member is read back, and has an access for each keeper and no other one with its address. -/
theorem Answers.reads (h : w.Answers ssl t c file) (ht : t.Consistent)
    (hword : w.group ≠ [] ∧ ∀ b ∈ w.group, isSpace b = false) (session : UInt64) :
    ∃ fresh, TrackerClient.locate session (some (rawReply ssl t c)) = .ok (file.metadata, fresh) ∧ fresh ≠ [] ∧
      ∀ i < (w.metadata ssl).pieceCount, (∃ a ∈ fresh, a.endpoint = (w.keeper i).endpoint) ∧
        ∀ a ∈ fresh, a.endpoint = (w.keeper i).endpoint → w.Admits ssl a (w.keeper i) (c.context.now + 300) := by
  obtain ⟨group, hgroup, hfile⟩ := sharedAs_eq_some h.stored
  have hname := ((ht.group _ _ hgroup).file _ _ hfile).name
  have hwords := words_locateCommand hword hname
  rw [← h.line] at hwords
  obtain ⟨accesses, hl⟩ := located_of_meta_of h.replied hwords (fromHex_toHex w.name) hgroup hfile
  obtain ⟨fresh, hlocate, hperm⟩ := hl.reads ht h.clock.1 h.clock.2 h.clean session
  have hticket : (⟨t.userOf c.session, w.group, w.name, c.context.now + 300⟩ : PeerTicket) =
      w.ticket (c.context.now + 300) := by rw [h.user]; rfl
  have haccesses := hl.accesses_eq
  have hissuable := hl.issuable ht
  have hdecode := hl.decode_ticket ht h.clock.1 h.clock.2
  rw [hticket] at haccesses hissuable hdecode
  have hissued : ∀ r, HasSeeder file r → accessFor ssl (w.ticket (c.context.now + 300)) r ∈ accesses := by
    rintro r ⟨user, hr⟩
    rw [haccesses]
    exact List.mem_map.mpr ⟨(user, r), (OrderedMap.mem_entries_iff _ _ _).mpr hr, rfl⟩
  refine ⟨fresh, hlocate, ?_, fun i hi => ⟨⟨_, hperm.mem_iff.mpr (hissued _ (h.registered i hi)), rfl⟩, ?_⟩⟩
  · obtain ⟨user, r, hr⟩ := ((ht.group _ _ hgroup).file _ _ hfile).seeded
    exact List.ne_nil_of_mem (hperm.mem_iff.mpr (hissued r ⟨user, hr⟩))
  · intro a ha hendpoint
    have hmem := hperm.mem_iff.mp ha
    have hkey := (hissuable a hmem).key
    rw [haccesses] at hmem
    obtain ⟨⟨user, r⟩, hr, rfl⟩ := List.mem_map.mp hmem
    obtain rfl : r = w.keeper i := h.apart r ⟨user, (OrderedMap.mem_entries_iff _ _ _).mp hr⟩ i hi hendpoint
    exact ⟨rfl, hdecode, hkey⟩

/-- After the renewal of an exchange a keeper's access is still its own, and at the position asked it is good for the
margin. -/
theorem Supplies.renews (h : w.Supplies ssl t d x) (ht : t.Consistent)
    (hword : w.group ≠ [] ∧ ∀ b ∈ w.group, isSpace b = false) (hi : i < (w.metadata ssl).pieceCount)
    (ha : d.seeders[p]? = some a) (hadmits : w.Admits ssl a (w.keeper i) expires) :
    ∃ a' expires', (d.seederAt x.index x.now x.located)[p]? = some a' ∧ w.Admits ssl a' (w.keeper i) expires' ∧
      (p = x.index → x.now + TICKET_MARGIN_SECONDS ≤ expires') := by
  cases hbefore : d.seeders[x.index]? with
  | none =>
    have hsame : d.seederAt x.index x.now x.located = d.seeders := by simp [seederAt, hbefore]
    refine ⟨a, expires, by rw [hsame, ha], hadmits, fun hp => ?_⟩
    rw [← hp, ha] at hbefore
    simp at hbefore
  | some before =>
    by_cases hexpires : before.expires - x.now < TICKET_MARGIN_SECONDS
    · rcases h.1 before hbefore hexpires with ⟨c, session, file, hanswers, hclock, hlocated⟩ | ⟨hnone, hother⟩
      · obtain ⟨fresh, hlocate, -, hfresh⟩ := hanswers.reads ht hword session
        obtain ⟨⟨b, hb, hat⟩, hown⟩ := hfresh i hi
        have hsome : x.located = some fresh := by rw [hlocated, TrackerClient.located, hlocate]
        obtain ⟨b', hlast⟩ := lastAt_isSome hb
        rw [hat, ← hadmits.endpoint_eq] at hlast
        have hrenewed : renewed fresh a = b' := by rw [renewed, hlast, Option.getD_some]
        obtain ⟨hmem, hendpoint⟩ := lastAt_eq_some hlast
        refine ⟨b', c.context.now + 300, ?_, hown b' hmem (hendpoint.trans hadmits.endpoint_eq), fun _ => ?_⟩
        · rw [hsome, seederAt_renews hbefore hexpires, List.getElem?_map, ha, Option.map_some, hrenewed]
        · simp only [PeerTicket.LIFETIME_SECONDS] at hclock
          omega
      · refine ⟨a, expires, by rw [hnone, seederAt_none, ha], hadmits, fun hp => ?_⟩
        rw [← hp, ha] at hbefore
        obtain rfl := Option.some.inj hbefore
        exact absurd hadmits.endpoint_eq (hother i hi)
    · have hsame : d.seederAt x.index x.now x.located = d.seeders := by
        unfold seederAt
        rw [hbefore]
        cases x.located with
        | none => rfl
        | some fresh => exact if_neg hexpires
      refine ⟨a, expires, by rw [hsame, ha], hadmits, fun hp => ?_⟩
      rw [← hp, ha] at hbefore
      obtain rfl := Option.some.inj hbefore
      rw [hadmits.expires_eq] at hexpires
      omega

/-- A keeper that accepts the access answers with what it has. -/
theorem Brings.outcome_eq {n : Connection} (h : w.Brings ssl n r access x) (hgcm : GcmCorrect ssl)
    (hnames : 2 * w.user.length + 2 * w.group.length + 2 * w.name.length + 226 ≤ MAX_FRAME)
    (hcount : 2 * (w.metadata ssl).pieceCount + 61 ≤ MAX_FRAME) (hadmits : w.Admits ssl access r expires)
    (hmargin : x.now + TICKET_MARGIN_SECONDS ≤ expires)
    (hoperation : x.operation = lit "BITMAP" ∨ x.operation = lit "GET") (hpiece : x.piece < u64Bound) :
    x.outcome = PeerServer.answer n.disk n.file x.operation x.piece := by
  obtain ⟨-, -, -, hlow, hhigh⟩ := PeerTicket.decode_eq_some hadmits.decodes
  have haad := length_requestAad_le hlow hhigh
  simp only [ticket] at haad
  have hkey : ((w.ticket expires).key ssl r.peerKey).length = 32 := by
    have hlength := hadmits.key
    rw [hadmits.access] at hlength
    exact hlength
  have hservable : Servable ssl (w.ticket expires) r.peerKey n.files n.file n.clock n.stamp n.random n.replyRandom := by
    refine ⟨hgcm, hadmits.decodes, hkey, ?_, h.shared, lt_of_lt_of_le h.clock hmargin, h.stamp.1, h.stamp.2, h.random.1,
      h.random.2⟩
    simp only [ticket, MAX_FRAME, INT_MAX] at *
    omega
  have hsettle := @settle_transfer _ _ _ _ _ _ _ _ _ _ _ r.endpoint hservable hoperation hpiece
    (by rw [h.stores.flags, h.metadata]; exact hcount) (by simp only [ticket]; omega) n.disk
  have htalk := h.talk
  rw [hadmits.access] at htalk
  exact congrArg Prod.fst (Talk.settle_together hsettle request_careful serve_careful h.calm.1 h.calm.2 htalk)

end Sharing

/-- The tracker and a download. -/
structure Swarm where
  tracker : TrackerState
  attempt : Attempt

namespace Swarm

/-- Commands that the tracker runs, and then a step of the download. -/
structure Move where
  calls : List Call
  action : Download.Action

def step (ssl : OpenSsl) (s : Swarm) (move : Move) : Swarm × Effect :=
  let result := s.attempt.step ssl move.action
  (⟨Machine.run (TrackerState.step ssl) s.tracker move.calls, result.1⟩, result.2)

/-- The download is not disturbed, an answer fits into `cap` bytes, and an exchange is as the keepers make it. -/
structure Supplied (w : Sharing) (ssl : OpenSsl) (cap : Nat) (s : Swarm) (move : Move) : Prop where
  calm : move.action.isCalm = true
  received : move.action.received.length ≤ cap
  exchange : ∀ x, s.attempt.download.exchange move.action = some x →
    w.Supplies ssl (Machine.run (TrackerState.step ssl) s.tracker move.calls) s.attempt.download x

/-- Every thread of the download has had a turn. -/
def Fair (round : List (Event Swarm Move Effect)) : Prop :=
  ∀ thread ∈ threads, ∃ e ∈ round, e.before.attempt.download.takesTurn thread e.input.action = true

/-- The download is on course, and holds an access for each keeper. -/
structure Ready (w : Sharing) (ssl : OpenSsl) (position : Nat → Nat) (s : Swarm) : Prop where
  tracker : Reachable ssl s.tracker
  delivering : Attempt.Delivering ssl w.contents position s.attempt
  accesses : ∀ i < (w.metadata ssl).pieceCount, ∃ a expires,
    s.attempt.download.seeders[position i]? = some a ∧ w.Admits ssl a (w.keeper i) expires

section Ready

variable {w : Sharing} {ssl : OpenSsl} {position : Nat → Nat} {cap : Nat} {s : Swarm} {move : Move} {x : Exchange}
  {i : Nat}

/-- The exchange with a keeper brings what the keeper has. -/
theorem Ready.answered (h : Ready w ssl position s) (hgcm : GcmCorrect ssl)
    (hnames : 2 * w.user.length + 2 * w.group.length + 2 * w.name.length + 226 ≤ MAX_FRAME)
    (hcount : 2 * (w.metadata ssl).pieceCount + 61 ≤ MAX_FRAME)
    (hword : w.group ≠ [] ∧ ∀ b ∈ w.group, isSpace b = false) {t : TrackerState} (ht : Reachable ssl t)
    (hsupplies : w.Supplies ssl t s.attempt.download x) (hi : i < (w.metadata ssl).pieceCount)
    (hat : position i = x.index) (hoperation : x.operation = lit "BITMAP" ∨ x.operation = lit "GET")
    (hpiece : x.piece < u64Bound) : ∃ n : Connection, n.file.metadata = w.metadata ssl ∧
      Stores ssl n.file n.disk w.contents ∧ n.file.available[i]? = some true ∧
      x.outcome = PeerServer.answer n.disk n.file x.operation x.piece := by
  obtain ⟨a, expires, ha, hadmits⟩ := h.accesses i hi
  obtain ⟨a', expires', ha', hadmits', hmargin⟩ := hsupplies.renews ht.consistent hword hi ha hadmits
  rw [hat] at ha'
  obtain ⟨n, hbrings⟩ := hsupplies.2 a' ha' i hi hadmits'.endpoint_eq
  exact ⟨n, hbrings.metadata, hbrings.stores, hbrings.kept i hi rfl,
    hbrings.outcome_eq hgcm hnames hcount hadmits' (hmargin hat) hoperation hpiece⟩

/-- So the keepers deliver. -/
theorem Ready.delivers (h : Ready w ssl position s) (hgcm : GcmCorrect ssl)
    (hnames : 2 * w.user.length + 2 * w.group.length + 2 * w.name.length + 226 ≤ MAX_FRAME)
    (hcount : 2 * (w.metadata ssl).pieceCount + 61 ≤ MAX_FRAME)
    (hword : w.group ≠ [] ∧ ∀ b ∈ w.group, isSpace b = false) (hsupplied : Supplied w ssl cap s move) :
    s.attempt.download.delivers w.contents position move.action = true := by
  obtain ⟨inputs, hinputs⟩ := h.tracker
  have ht : Reachable ssl (Machine.run (TrackerState.step ssl) s.tracker move.calls) :=
    ⟨inputs ++ move.calls, by rw [Machine.run_append, hinputs]⟩
  have hmetadata := h.delivering.sound.metadata
  have hcalm := hsupplied.calm
  have hexchange := hsupplied.exchange
  generalize move.action = action at hcalm hexchange
  cases action with
  | cancel => simp [Download.Action.isCalm] at hcalm
  | main input =>
    simp only [Download.delivers, Bool.and_eq_true]
    refine ⟨by simpa [Download.Action.isCalm] using hcalm, ?_⟩
    split
    · next seeder now located outcome hphase =>
      simp only [decide_eq_true_eq]
      intro i hi hat
      rw [hmetadata] at hi ⊢
      have hsupplies := hexchange ⟨seeder, lit "BITMAP", 0, now, located, outcome⟩ (by simp only [exchange, hphase])
      obtain ⟨n, hsame, hstores, hkept, houtcome⟩ :=
        h.answered hgcm hnames hcount hword ht hsupplies hi hat (Or.inl rfl) (show 0 < u64Bound by decide)
      have hbitmap := @fetchBitmap_answer _ _ _ 0 _ hstores
      rw [hsame] at hbitmap
      dsimp only at houtcome
      rw [houtcome]
      change (PeerClient.fetchBitmap (w.metadata ssl).pieceCount _).1 = _ ∧ _
      rw [hbitmap]
      refine ⟨rfl, ?_⟩
      change (PeerClient.fetchBitmap (w.metadata ssl).pieceCount _).2.getD i false = true
      rw [hbitmap, List.getD_eq_getElem?_getD, hkept, Option.getD_some]
    · rfl
  | worker k input =>
    simp only [Download.delivers, Bool.and_eq_true]
    refine ⟨by simpa [Download.Action.isCalm] using hcalm, ?_⟩
    split
    · next i attempt seeder now located outcome hw =>
      simp only [Bool.or_eq_true, decide_eq_true_eq]
      by_cases hat : seeder = position i
      · right
        have hi := (h.delivering.sound.progress.workers _ (List.mem_of_getElem? hw)).1 i rfl
        have hbound : i < u64Bound := by
          rw [h.delivering.sound.progress.describes.count] at hi
          exact hi.trans (UInt64.toNat_lt _)
        rw [hmetadata] at hi ⊢
        have hsupplies := hexchange ⟨seeder, lit "GET", i, now, located, outcome⟩
          (by simp only [exchange, hw])
        obtain ⟨n, hsame, hstores, hkept, houtcome⟩ :=
          h.answered hgcm hnames hcount hword ht hsupplies hi hat.symm (Or.inr rfl) hbound
        have hpiece := answer_piece hstores (show i < n.file.metadata.pieceCount by rw [hsame]; exact hi)
        rw [if_pos hkept, hsame] at hpiece
        exact houtcome.trans hpiece
      · exact Or.inl hat
    · rfl

theorem Ready.step (h : Ready w ssl position s) (hgcm : GcmCorrect ssl) (hsize : w.contents.length < 2 ^ 63)
    (hnames : 2 * w.user.length + 2 * w.group.length + 2 * w.name.length + 226 ≤ MAX_FRAME)
    (hcount : 2 * (w.metadata ssl).pieceCount + 61 ≤ MAX_FRAME)
    (hword : w.group ≠ [] ∧ ∀ b ∈ w.group, isSpace b = false) (hsupplied : Supplied w ssl cap s move) :
    Ready w ssl position (s.step ssl move).1 := by
  obtain ⟨inputs, hinputs⟩ := h.tracker
  have ht : Reachable ssl (Machine.run (TrackerState.step ssl) s.tracker move.calls) :=
    ⟨inputs ++ move.calls, by rw [Machine.run_append, hinputs]⟩
  refine ⟨ht, h.delivering.step hsize (h.delivers hgcm hnames hcount hword hsupplied), fun i hi => ?_⟩
  obtain ⟨a, expires, ha, hadmits⟩ := h.accesses i hi
  change ∃ a expires, (s.attempt.download.step ssl s.attempt.view move.action).1.seeders[position i]? = some a ∧ _
  rcases step_exchange ssl s.attempt.download s.attempt.view move.action with hsame | ⟨x, hx, hrenewed⟩
  · exact ⟨a, expires, by rw [hsame, ha], hadmits⟩
  · obtain ⟨a', expires', ha', hadmits', -⟩ := (hsupplied.exchange x hx).renews ht.consistent hword hi ha hadmits
    exact ⟨a', expires', by rw [hrenewed, ha'], hadmits'⟩

end Ready

section Example

open PeerServer

def bobAsks (now : Int) : Call := ⟨9, TrackerClient.locateCommand (lit "g") (lit "f"), ⟨[], 0, now⟩⟩

/-- Turns of the download, with nothing at the tracker. -/
def quiet (actions : List Download.Action) : List Move := actions.map (fun action => ⟨[], action⟩)

instance (round : List (Event Swarm Move Effect)) : Decidable (Fair round) :=
  inferInstanceAs (Decidable (∀ thread ∈ threads, ∃ e ∈ round,
    e.before.attempt.download.takesTurn thread e.input.action = true))

end Example

end Swarm

end TorrentAtlas
