import TorrentAtlas.TrackerEffect

/-!
# The tracker's data invariant

What every command keeps true of users, sessions and groups together. A group
depends on the rest of the state only through who is registered and who has a
live session, so its part of the invariant is stated over these two predicates
and is monotone in them.
-/
namespace TorrentAtlas.TrackerState

open Encoding Crypto

/-- Accounts that exist. -/
def Registered (s : TrackerState) (user : Bytes) : Prop := s.users.contains user = true

/-- Users with at least one bound session. -/
def Live (s : TrackerState) (user : Bytes) : Prop := ∃ session, s.sessions.find session = some user

/-- One registration of a seeder in a group. -/
structure SeederConsistent (live : Bytes → Prop) (members : NameSet) (user : Bytes) (seeder : Seeder) : Prop where
  member : members.contains user = true
  live : live user
  key : seeder.peerKey.length = 32
  endpoint : ∃ text, Endpoint.parse text = some seeder.endpoint
  ip_blank : ∀ b ∈ seeder.endpoint.ip, isSpace b = false

/-- One shared file of a group. -/
structure FileConsistent (live : Bytes → Prop) (members : NameSet) (name : Bytes) (file : SharedFile) : Prop where
  name : name ≠ []
  valid : file.metadata.valid = true
  seeded : ∃ user seeder, file.seeders.find user = some seeder
  seeder : ∀ user seeder, file.seeders.find user = some seeder → SeederConsistent live members user seeder

structure GroupConsistent (registered live : Bytes → Prop) (group : Group) : Prop where
  owner_registered : registered group.owner
  owner_member : group.members.contains group.owner = true
  member_registered : ∀ user, group.members.contains user = true → registered user
  pending_registered : ∀ user, group.pending.contains user = true → registered user
  disjoint : ∀ user, group.members.contains user = true → group.pending.contains user = false
  file : ∀ name file, group.files.find name = some file → FileConsistent live group.members name file

structure Consistent (s : TrackerState) : Prop where
  session_zero : s.sessions.find 0 = none
  session_registered : ∀ session user, s.sessions.find session = some user → s.Registered user
  user_name : ∀ user, s.Registered user → user ≠ []
  group : ∀ name group, s.groups.find name = some group → GroupConsistent s.Registered s.Live group

section Group

variable {registered registered' live live' : Bytes → Prop} {group : Group}

theorem SeederConsistent.mono {members members' : NameSet} {user : Bytes} {seeder : Seeder}
    (h : SeederConsistent live members user seeder) (hm : members'.contains user = true) (hl : live' user) :
    SeederConsistent live' members' user seeder :=
  ⟨hm, hl, h.key, h.endpoint, h.ip_blank⟩

/-- More accounts and more sessions never break a group. -/
theorem GroupConsistent.mono (h : GroupConsistent registered live group)
    (hr : ∀ user, registered user → registered' user) (hl : ∀ user, live user → live' user) :
    GroupConsistent registered' live' group where
  owner_registered := hr _ h.owner_registered
  owner_member := h.owner_member
  member_registered user hu := hr _ (h.member_registered user hu)
  pending_registered user hu := hr _ (h.pending_registered user hu)
  disjoint := h.disjoint
  file name file hf :=
    let hc := h.file name file hf
    ⟨hc.name, hc.valid, hc.seeded, fun user seeder hs =>
      (hc.seeder user seeder hs).mono (hc.seeder user seeder hs).member (hl _ (hc.seeder user seeder hs).live)⟩

/-- A file survives the sweep exactly with its other seeders, and with at least one. -/
theorem find_removeSharesOf (group : Group) (user name : Bytes) (file : SharedFile) :
    (group.removeSharesOf user).files.find name = some file ↔
      ∃ old, group.files.find name = some old ∧ file = { old with seeders := old.seeders.erase user } ∧
        ∃ other seeder, file.seeders.find other = some seeder := by
  simp only [Group.removeSharesOf, OrderedMap.find_filterMap]
  cases hf : group.files.find name with
  | none => simp
  | some old =>
    simp only [Option.bind_some, Option.some.injEq, exists_eq_left']
    constructor
    · intro h
      split at h
      · simp at h
      · next hne =>
        cases h
        exact ⟨rfl, (OrderedMap.isEmpty_eq_false_iff _).mp (by simpa using hne)⟩
    · rintro ⟨rfl, hne⟩
      rw [if_neg (by simpa using (OrderedMap.isEmpty_eq_false_iff _).mpr hne)]

/-- Dropping one user's shares, and possibly that user's membership, keeps a group consistent. -/
theorem GroupConsistent.removeSharesOf (h : GroupConsistent registered live group) (user : Bytes)
    (members : NameSet) (hsub : ∀ v, members.contains v = true → group.members.contains v = true)
    (hkeep : ∀ v, v ≠ user → group.members.contains v = true → members.contains v = true)
    (howner : members.contains group.owner = true) (hlive : ∀ v, v ≠ user → live v → live' v) :
    GroupConsistent registered live' ({ group with members }.removeSharesOf user) where
  owner_registered := h.owner_registered
  owner_member := howner
  member_registered v hv := h.member_registered v (hsub v hv)
  pending_registered := h.pending_registered
  disjoint v hv := h.disjoint v (hsub v hv)
  file name file hf := by
    obtain ⟨old, hold, rfl, hseeded⟩ := (find_removeSharesOf _ _ _ _).mp hf
    have hc := h.file name old hold
    refine ⟨hc.name, hc.valid, hseeded, ?_⟩
    intro v seeder hv
    rw [OrderedMap.find_erase] at hv
    split at hv
    · simp at hv
    · next hne =>
      have hs := hc.seeder v seeder hv
      exact hs.mono (hkeep v hne hs.member) (hlive v hne hs.live)

/-- A group stays consistent without a member other than its owner. -/
theorem GroupConsistent.eraseMember (h : GroupConsistent registered live group) {user : Bytes}
    (hother : group.owner ≠ user) :
    GroupConsistent registered live ({ group with members := group.members.erase user }.removeSharesOf user) := by
  refine h.removeSharesOf user _ ?_ ?_ ?_ (fun _ _ hl => hl)
  · intro v hv
    simp only [OrderedMap.contains_erase, Bool.and_eq_true] at hv
    exact hv.2
  · intro v hne hv
    simp [hne, hv]
  · simp [hother, h.owner_member]

/-- Replacing or adding one consistent file. -/
theorem GroupConsistent.insertFile (h : GroupConsistent registered live group) {name : Bytes} {file : SharedFile}
    (hf : FileConsistent live group.members name file) :
    GroupConsistent registered live { group with files := group.files.insert name file } where
  owner_registered := h.owner_registered
  owner_member := h.owner_member
  member_registered := h.member_registered
  pending_registered := h.pending_registered
  disjoint := h.disjoint
  file n f hn := by
    rw [OrderedMap.find_insert] at hn
    split at hn
    · next he =>
      cases hn
      rw [he]
      exact hf
    · exact h.file n f hn

theorem GroupConsistent.eraseFile (h : GroupConsistent registered live group) (name : Bytes) :
    GroupConsistent registered live { group with files := group.files.erase name } where
  owner_registered := h.owner_registered
  owner_member := h.owner_member
  member_registered := h.member_registered
  pending_registered := h.pending_registered
  disjoint := h.disjoint
  file n f hn := by
    rw [OrderedMap.find_erase] at hn
    split at hn
    · simp at hn
    · exact h.file n f hn

end Group

/-- What the field checks of `upload_file` establish. -/
theorem parseUpload_eq_some {args : List Bytes} {upload : Upload} (h : parseUpload args = some upload) :
    upload.name ≠ [] ∧ upload.metadata.valid = true ∧ upload.seeder.peerKey.length = 32 ∧
      ∃ ip ∈ args, ∃ port ∈ args, Endpoint.parse (ip ++ lit ":" ++ port) = some upload.seeder.endpoint := by
  unfold parseUpload at h
  split at h
  · next g hexName size fullHash hashes ip port hexKey =>
    split at h
    · next name sz endpoint peerKey hname hsize hendpoint hkey =>
      dsimp only at h
      split at h
      · simp at h
      · next hok =>
        cases h
        simp only [Bool.or_eq_true, List.isEmpty_iff, Bool.not_eq_true', decide_eq_true_eq, not_or,
          Bool.not_eq_false, ne_eq, not_not] at hok
        exact ⟨hok.1.1, hok.1.2, hok.2, ip, by simp, port, by simp, hendpoint⟩
    · simp at h
  · simp at h

theorem blank_of_mem_args {line name arg : Bytes} {args : List Bytes} (hw : words line = name :: args)
    (h : arg ∈ args) :
    ∀ b ∈ arg, isSpace b = false :=
  (@Delimited.of_mem_words _ isSpace line arg (by unfold words at hw; rw [hw]; exact List.mem_cons_of_mem _ h)).2

theorem ip_blank_of_parse {ip port : Bytes} {e : Endpoint} (h : Endpoint.parse (ip ++ lit ":" ++ port) = some e)
    (hip : ∀ b ∈ ip, isSpace b = false) (hport : ∀ b ∈ port, isSpace b = false) : ∀ b ∈ e.ip, isSpace b = false := by
  obtain ⟨-, rest, -, htext⟩ := Endpoint.parse_eq_some h
  intro b hb
  have hmem : b ∈ ip ++ lit ":" ++ port := by rw [htext]; exact List.mem_append_left _ hb
  simp only [List.mem_append] at hmem
  rcases hmem with (hmem | hmem) | hmem
  · exact hip b hmem
  · have hcolon : b = chr ':' := by simpa [lit, chr] using hmem
    rw [hcolon]
    decide
  · exact hport b hmem

/-- The share an upload leaves behind: its own entry on top of the earlier ones,
with the metadata of the first upload. -/
theorem shareFile_eq_some {existing : Option SharedFile} {upload : Upload} {user : Bytes} {file : SharedFile}
    (h : shareFile existing upload user = some file)
    (hvalid : ∀ old, existing = some old → old.metadata.valid = true) :
    file.metadata = upload.metadata ∧
      file.seeders = ((existing.map SharedFile.seeders).getD .empty).insert user upload.seeder ∧
      ∀ old, existing = some old → old.metadata = upload.metadata := by
  unfold shareFile at h
  cases existing with
  | none =>
    simp only [Option.getD_none, List.isEmpty_nil, if_true, Option.some.injEq] at h
    subst h
    exact ⟨rfl, rfl, by simp⟩
  | some old =>
    have hne := FileMetadata.valid_fullHash_ne_nil (hvalid old rfl)
    simp only [Option.getD_some, List.isEmpty_iff, hne, if_false] at h
    split at h
    · next hsame =>
      cases h
      have he := (FileMetadata.sameContent_iff _ _).mp hsame
      exact ⟨he, rfl, by rintro _ ⟨rfl⟩; exact he⟩
    · simp at h

theorem userOf_eq_some {s : TrackerState} {session : UInt64} (h : s.userOf session ≠ []) :
    s.sessions.find session = some (s.userOf session) := by
  unfold userOf at *
  cases hf : s.sessions.find session with
  | none => simp [hf] at h
  | some u => rfl

/-- In a consistent state a session with no user is not bound at all. -/
theorem Consistent.unbound {s : TrackerState} (h : s.Consistent) {session : UInt64} (hout : s.userOf session = []) :
    s.sessions.find session = none := by
  cases hf : s.sessions.find session with
  | none => rfl
  | some u =>
    have hu : u = [] := by simpa [userOf, hf] using hout
    exact absurd hu (h.user_name u (h.session_registered session u hf))

/-- Writing one consistent group leaves everything else as it was. -/
theorem Consistent.setGroup {s : TrackerState} (h : s.Consistent) {name : Bytes} {group : Group}
    (hg : GroupConsistent s.Registered s.Live group) : (s.setGroup name group).Consistent where
  session_zero := h.session_zero
  session_registered := h.session_registered
  user_name := h.user_name
  group n g hn := by
    simp only [TrackerState.setGroup, OrderedMap.find_insert] at hn
    split at hn
    · cases hn
      exact hg
    · exact h.group n g hn

theorem word_ne_nil {line w : Bytes} (h : w ∈ words line) : w ≠ [] := (Delimited.of_mem_words h).1

variable {ssl : OpenSsl}

theorem Effect.consistent {s s' : TrackerState} {c : Call} {result : CommandResult}
    (e : Effect ssl s c s' result) (h : s.Consistent) : s'.Consistent := by
  cases e with
  | refused => exact h
  | listed => exact h
  | downloadFile => exact h
  | createUser name secret hwords hnew hstored =>
    refine ⟨h.session_zero, ?_, ?_, ?_⟩
    · intro session user hs
      simp [Registered, show s.users.contains user = true from h.session_registered session user hs]
    · intro user hu
      simp only [Registered, OrderedMap.contains_insert, Bool.or_eq_true, decide_eq_true_eq] at hu
      rcases hu with rfl | hu
      · exact word_ne_nil (by rw [hwords]; simp)
      · exact h.user_name user hu
    · intro n g hg
      refine (h.group n g hg).mono ?_ (fun _ hl => hl)
      intro user hu
      simp [Registered, show s.users.contains user = true from hu]
  | login name secret stored session hwords hout huser hverify hsession hzero hfresh =>
    have hunbound : s.sessions.find session = none := by
      by_cases hz : c.session = 0
      · exact hfresh hz
      · rw [if_neg hz] at hsession
        rw [hsession]
        exact h.unbound hout
    have hname : s.Registered name := (OrderedMap.contains_iff _ _).mpr ⟨stored, huser⟩
    refine ⟨?_, ?_, h.user_name, ?_⟩
    · simp [Ne.symm hzero, h.session_zero]
    · intro session' user hs
      rw [OrderedMap.find_insert] at hs
      split at hs
      · cases hs
        exact hname
      · exact h.session_registered session' user hs
    · intro n g hg
      refine (h.group n g hg).mono (fun _ hr => hr) ?_
      rintro user ⟨session', hs⟩
      have hne : session' ≠ session := by
        rintro rfl
        simp [hunbound] at hs
      exact ⟨session', by simp [hne, hs]⟩
  | logout hwords huser =>
    have hbound := userOf_eq_some huser
    refine ⟨?_, ?_, h.user_name, ?_⟩
    · simp [h.session_zero]
    · intro session user hs
      rw [OrderedMap.find_erase] at hs
      split at hs
      · simp at hs
      · exact h.session_registered session user hs
    · intro n g hg
      rw [OrderedMap.find_mapValues] at hg
      obtain ⟨old, hold, rfl⟩ := Option.map_eq_some_iff.mp hg
      have hc := h.group n old hold
      refine hc.removeSharesOf (s.userOf c.session) old.members (fun _ hv => hv) (fun _ _ hv => hv)
        hc.owner_member ?_
      rintro v hv ⟨session, hs⟩
      have hne : session ≠ c.session := by
        rintro rfl
        rw [hbound] at hs
        exact hv (Option.some.inj hs).symm
      exact ⟨session, by simp [hne, hs]⟩
  | createGroup name hwords huser hnew =>
    have hreg := h.session_registered _ _ (userOf_eq_some huser)
    refine h.setGroup ⟨hreg, by simp, ?_, by simp, by simp, by simp⟩
    intro user hu
    have : user = s.userOf c.session := by simpa using hu
    rw [this]
    exact hreg
  | joinGroup name group hwords huser hgroup hmember hpending =>
    have hc := h.group name group hgroup
    have hreg := h.session_registered _ _ (userOf_eq_some huser)
    refine h.setGroup ⟨hc.owner_registered, hc.owner_member, hc.member_registered, ?_, ?_, hc.file⟩
    · intro user hu
      simp only [OrderedMap.contains_insert, Bool.or_eq_true, decide_eq_true_eq] at hu
      rcases hu with rfl | hu
      · exact hreg
      · exact hc.pending_registered user hu
    · intro user hu
      have hne : user ≠ s.userOf c.session := by
        rintro rfl
        simp [hmember] at hu
      simpa [hne] using hc.disjoint user hu
  | leaveGroup name group hwords huser hgroup howner hmember =>
    exact h.setGroup ((h.group name group hgroup).eraseMember howner)
  | acceptRequest name user group hwords huser hgroup howner hpending =>
    have hc := h.group name group hgroup
    refine h.setGroup ⟨hc.owner_registered, by simp [hc.owner_member], ?_, ?_, ?_, ?_⟩
    · intro v hv
      simp only [OrderedMap.contains_insert, Bool.or_eq_true, decide_eq_true_eq] at hv
      rcases hv with rfl | hv
      · exact hc.pending_registered _ hpending
      · exact hc.member_registered v hv
    · intro v hv
      simp only [OrderedMap.contains_erase, Bool.and_eq_true] at hv
      exact hc.pending_registered v hv.2
    · intro v hv
      by_cases hvu : v = user
      · simp [hvu]
      · simp only [OrderedMap.contains_insert, hvu, decide_false, Bool.false_or] at hv
        simp [hvu, hc.disjoint v hv]
    · intro n f hf
      have hfc := hc.file n f hf
      refine ⟨hfc.name, hfc.valid, hfc.seeded, fun v seeder hs => ?_⟩
      have hsc := hfc.seeder v seeder hs
      exact hsc.mono (by simp [hsc.member]) hsc.live
  | removeMember name user group hwords huser hgroup howner hother hmember =>
    exact h.setGroup ((h.group name group hgroup).eraseMember (Ne.symm hother))
  | uploadFile name args group upload file hwords huser hgroup hmember hupload hfile =>
    have hc := h.group name group hgroup
    obtain ⟨hname, hvalid, hkey, ip, hip, port, hport, hendpoint⟩ := parseUpload_eq_some hupload
    have hblank := ip_blank_of_parse hendpoint (blank_of_mem_args hwords hip) (blank_of_mem_args hwords hport)
    have hold : ∀ old, group.files.find upload.name = some old → old.metadata.valid = true :=
      fun old ho => (hc.file _ old ho).valid
    obtain ⟨hmeta, hseeders, -⟩ := shareFile_eq_some hfile hold
    refine h.setGroup (hc.insertFile ⟨hname, hmeta ▸ hvalid, ?_, ?_⟩)
    · exact ⟨s.userOf c.session, upload.seeder, by simp [hseeders]⟩
    · intro v seeder hv
      rw [hseeders, OrderedMap.find_insert] at hv
      split at hv
      · next he =>
        cases hv
        subst he
        exact ⟨hmember, ⟨c.session, userOf_eq_some huser⟩, hkey, ⟨_, hendpoint⟩, hblank⟩
      · cases ho : group.files.find upload.name with
        | none => simp [ho] at hv
        | some old =>
          rw [ho] at hv
          exact (hc.file _ old ho).seeder v seeder hv
  | stopShare name hexFile fileName group file hwords huser hgroup hname hfile hseeder =>
    have hc := h.group name group hgroup
    have hfc := hc.file fileName file hfile
    refine h.setGroup ?_
    split
    · exact hc.eraseFile fileName
    · next hne =>
      refine hc.insertFile ⟨hfc.name, hfc.valid, ?_, ?_⟩
      · exact (OrderedMap.isEmpty_eq_false_iff _).mp (by simpa using hne)
      · intro v seeder hv
        rw [OrderedMap.find_erase] at hv
        split at hv
        · simp at hv
        · exact hfc.seeder v seeder hv

theorem empty_consistent : empty.Consistent where
  session_zero := rfl
  session_registered := by simp [empty]
  user_name := by simp [empty, Registered]
  group := by simp [empty]

/-- Every command keeps the invariant. -/
theorem step_consistent (s : TrackerState) (c : Call) (h : s.Consistent) : (step ssl s c).1.Consistent :=
  (apply_effect s c).consistent h

/-- The invariant holds in every state the tracker can reach. -/
theorem Reachable.consistent {s : TrackerState} (h : Reachable ssl s) : s.Consistent :=
  Machine.invariant empty_consistent step_consistent h

/-- The invariant spelled out for the state after any sequence of commands. -/
theorem run_state_consistent (ssl : OpenSsl) (calls : List Call) :
    (Machine.run (step ssl) empty calls).sessions.find 0 = none ∧
    (∀ session user, (Machine.run (step ssl) empty calls).sessions.find session = some user →
      (Machine.run (step ssl) empty calls).Registered user) ∧
    ∀ name group, (Machine.run (step ssl) empty calls).groups.find name = some group →
      (Machine.run (step ssl) empty calls).Registered group.owner ∧
      group.members.contains group.owner = true ∧
      (∀ user, group.members.contains user = true →
        (Machine.run (step ssl) empty calls).Registered user ∧ group.pending.contains user = false) ∧
      (∀ user, group.pending.contains user = true →
        (Machine.run (step ssl) empty calls).Registered user ∧ group.members.contains user = false) ∧
      ∀ fileName file, group.files.find fileName = some file →
        fileName ≠ [] ∧ file.metadata.valid = true ∧ (∃ user seeder, file.seeders.find user = some seeder) ∧
        ∀ user seeder, file.seeders.find user = some seeder →
          group.members.contains user = true ∧
          (∃ session, (Machine.run (step ssl) empty calls).sessions.find session = some user) ∧
          seeder.peerKey.length = 32 ∧ ∃ text, Endpoint.parse text = some seeder.endpoint := by
  have h : (Machine.run (step ssl) empty calls).Consistent := Reachable.consistent ⟨calls, rfl⟩
  refine ⟨h.session_zero, h.session_registered, fun name group hgroup => ?_⟩
  have hg := h.group name group hgroup
  refine ⟨hg.owner_registered, hg.owner_member, fun user hu => ⟨hg.member_registered user hu, hg.disjoint user hu⟩,
    fun user hu => ⟨hg.pending_registered user hu, ?_⟩, fun fileName file hfile => ?_⟩
  · cases hm : group.members.contains user with
    | false => rfl
    | true => simp [hg.disjoint user hm] at hu
  · have hf := hg.file fileName file hfile
    refine ⟨hf.name, hf.valid, hf.seeded, fun user seeder hs => ?_⟩
    have hsc := hf.seeder user seeder hs
    exact ⟨hsc.member, hsc.live, hsc.key, hsc.endpoint⟩

end TorrentAtlas.TrackerState
