import TorrentAtlas.Isolation
import TorrentAtlas.Locate

/-!
# The content behind a name

A file's entry keeps the metadata of the upload that created it for as long as somebody
seeds it. `EntryStep` says what one command does to one entry; along a run the entry can
only stay as it is, go with its last seeder, and come back under a new upload.
-/
namespace TorrentAtlas.TrackerState

open Encoding Crypto

/-- A successful `upload_file` for file `f` of group `g` with these metadata. -/
def Uploaded (g f : Bytes) (m : FileMetadata) (e : TrackerEvent) : Prop :=
  ∃ args upload, words e.input.commandLine = lit "upload_file" :: g :: args ∧
    parseUpload (g :: args) = some upload ∧ upload.name = f ∧ upload.metadata = m ∧
    e.output.response = lit "OK file shared"

/-- A `download_file` for file `f` of group `g`, answered with metadata. -/
def Answered (g f : Bytes) (e : TrackerEvent) : Prop :=
  ∃ hexFile, words e.input.commandLine = [lit "download_file", g, hexFile] ∧ fromHex hexFile = some f ∧
    (lit "META ").isPrefixOf e.output.response = true

/-- The entry of a file is there. -/
def Listed (g f : Bytes) (s : TrackerState) : Prop := (sharedAs s g f).isSome = true

instance (g f : Bytes) (s : TrackerState) : Decidable (Listed g f s) := inferInstanceAs (Decidable (_ = _))

section Views

variable {s s' : TrackerState} {g f n : Bytes} {group : Group}

theorem listed_iff : Listed g f s ↔ Shared s g f := by
  rw [Listed, Option.isSome_iff_exists]
  constructor
  · rintro ⟨file, hfile⟩
    obtain ⟨group, hgroup, hfile⟩ := sharedAs_eq_some hfile
    exact ⟨group, file, hgroup, hfile⟩
  · rintro ⟨group, file, hgroup, hfile⟩
    exact ⟨file, by simp [sharedAs, findGroup, hgroup, hfile]⟩

theorem sharedAs_of_find (h : s.groups.find g = some group) : sharedAs s g f = group.files.find f := by
  simp [sharedAs, findGroup, h]

theorem sharedAs_setGroup : sharedAs (s.setGroup n group) g f =
    if g = n then group.files.find f else sharedAs s g f := by
  by_cases h : g = n <;> simp [sharedAs, findGroup, setGroup, h]

/-- No entry is new, and every entry has the metadata it had. -/
def Fewer (s s' : TrackerState) : Prop :=
  ∀ g f new, sharedAs s' g f = some new → ∃ old, sharedAs s g f = some old ∧ new.metadata = old.metadata

theorem Fewer.refl (s : TrackerState) : Fewer s s := fun _ _ new hnew => ⟨new, hnew, rfl⟩

theorem fewer_setGroup {old : Group} (hold : s.groups.find n = some old)
    (h : ∀ f new, group.files.find f = some new → ∃ file, old.files.find f = some file ∧ new.metadata = file.metadata) :
    Fewer s (s.setGroup n group) := by
  intro g f new hnew
  rw [sharedAs_setGroup] at hnew
  split at hnew
  · next hg =>
    rw [hg, sharedAs_of_find hold]
    exact h f new hnew
  · exact ⟨new, hnew, rfl⟩

theorem metadata_removeSharesOf (group : Group) (user f : Bytes) (new : SharedFile)
    (h : (group.removeSharesOf user).files.find f = some new) :
    ∃ file, group.files.find f = some file ∧ new.metadata = file.metadata := by
  obtain ⟨file, hfile, rfl, -⟩ := (find_removeSharesOf _ _ _ _).mp h
  exact ⟨file, hfile, rfl⟩

end Views

variable {ssl : OpenSsl}

/-- What one command does to the entry of `f` in `g`. -/
structure EntryStep (g f : Bytes) (e : TrackerEvent) : Prop where
  kept : ∀ old new, sharedAs e.before g f = some old → sharedAs e.after g f = some new → new.metadata = old.metadata
  created : ∀ new, sharedAs e.before g f = none → sharedAs e.after g f = some new → Uploaded g f new.metadata e
  uploaded : ∀ m, Uploaded g f m e → ∃ new, sharedAs e.after g f = some new ∧ new.metadata = m

theorem Fewer.entryStep {e : TrackerEvent} (h : Fewer e.before e.after) (hno : ∀ g f m, ¬ Uploaded g f m e)
    (g f : Bytes) : EntryStep g f e where
  kept old new hold hnew := by
    obtain ⟨file, hfile, hmeta⟩ := h g f new hnew
    rw [Option.some.inj (hold.symm.trans hfile), hmeta]
  created new hnone hnew := by
    obtain ⟨file, hfile, -⟩ := h g f new hnew
    simp [hnone] at hfile
  uploaded m hm := absurd hm (hno g f m)

section Commands

variable {s s' : TrackerState} {c : Call} {result : CommandResult}

theorem uploadFile_entryStep {name : Bytes} {args : List Bytes} {group : Group} {upload : Upload} {file : SharedFile}
    {session : UInt64} {user : Bytes} (hs : s.Consistent)
    (hwords : words c.commandLine = lit "upload_file" :: name :: args) (hgroup : s.groups.find name = some group)
    (hupload : parseUpload (name :: args) = some upload)
    (hfile : shareFile (group.files.find upload.name) upload user = some file) (g f : Bytes) :
    EntryStep g f ⟨s, c, ⟨lit "OK file shared", session⟩,
      s.setGroup name { group with files := group.files.insert upload.name file }⟩ := by
  obtain ⟨hmeta, -, hold⟩ := shareFile_eq_some hfile
    (fun old ho => ((hs.group name group hgroup).file upload.name old ho).valid)
  have hafter : sharedAs (s.setGroup name { group with files := group.files.insert upload.name file }) g f =
      if g = name ∧ f = upload.name then some file else sharedAs s g f := by
    rw [sharedAs_setGroup]
    by_cases hg : g = name
    · simp [hg, sharedAs_of_find hgroup]
    · simp [hg]
  refine ⟨fun old new hbefore hnew => ?_, fun new hnone hnew => ?_, fun m hm => ?_⟩
  · rw [hafter] at hnew
    split at hnew
    · next he =>
      obtain rfl := Option.some.inj hnew
      rw [he.1, he.2, sharedAs_of_find hgroup] at hbefore
      rw [hmeta, hold old hbefore]
    · rw [Option.some.inj (hnew.symm.trans hbefore)]
  · rw [hafter] at hnew
    split at hnew
    · next he =>
      obtain rfl := Option.some.inj hnew
      obtain ⟨rfl, rfl⟩ := he
      exact ⟨args, upload, hwords, hupload, rfl, hmeta.symm, rfl⟩
    · exact absurd (hnone.symm.trans hnew) (by simp)
  · obtain ⟨args', upload', hwords', hupload', rfl, rfl, -⟩ := hm
    have heq := hwords'.symm.trans hwords
    simp only [List.cons.injEq, true_and] at heq
    obtain ⟨rfl, rfl⟩ := heq
    obtain rfl := Option.some.inj (hupload'.symm.trans hupload)
    exact ⟨file, by rw [hafter, if_pos ⟨rfl, rfl⟩], hmeta⟩

/-- Every outcome of a command is one step of every entry. -/
theorem Effect.entryStep (e : Effect ssl s c s' result) (hs : s.Consistent) (g f : Bytes) :
    EntryStep g f ⟨s, c, result, s'⟩ := by
  have hother : ∀ {name : Bytes} {args : List Bytes}, words c.commandLine = name :: args → name ≠ lit "upload_file" →
      ∀ g f m, ¬ Uploaded g f m ⟨s, c, result, s'⟩ := by
    rintro name args hw hne g f m ⟨args', upload, hwords, -⟩
    exact hne (List.cons.inj (hw.symm.trans hwords)).1
  cases e with
  | refused text herr =>
    refine (Fewer.refl s).entryStep (fun g f m => ?_) g f
    rintro ⟨args, upload, -, -, -, -, hreply⟩
    obtain rfl : text = lit "OK file shared" := hreply
    exact absurd herr (by decide)
  | createUser name secret hwords =>
    exact Fewer.entryStep (fun _ _ new h => ⟨new, h, rfl⟩) (hother hwords (by decide)) g f
  | login name secret stored session hwords =>
    exact Fewer.entryStep (fun _ _ new h => ⟨new, h, rfl⟩) (hother hwords (by decide)) g f
  | listed text hwords =>
    obtain ⟨args, hw | hw | hw⟩ := hwords <;> exact (Fewer.refl s).entryStep (hother hw (by decide)) g f
  | downloadFile name hexFile fileName group file accesses hwords =>
    exact (Fewer.refl s).entryStep (hother hwords (by decide)) g f
  | logout hwords huser =>
    refine Fewer.entryStep (fun g f new hnew => ?_) (hother hwords (by decide)) g f
    obtain ⟨after, hafter, hfile⟩ := sharedAs_eq_some hnew
    rw [OrderedMap.find_mapValues] at hafter
    obtain ⟨group, hgroup, rfl⟩ := Option.map_eq_some_iff.mp hafter
    dsimp only
    rw [sharedAs_of_find hgroup]
    exact metadata_removeSharesOf group _ f new hfile
  | createGroup name hwords huser hnew =>
    refine Fewer.entryStep (fun g f new hfile => ?_) (hother hwords (by decide)) g f
    rw [sharedAs_setGroup] at hfile
    split at hfile
    · simp at hfile
    · exact ⟨new, hfile, rfl⟩
  | joinGroup name group hwords huser hgroup =>
    refine Fewer.entryStep (fewer_setGroup hgroup fun f new hnew => ?_) (hother hwords (by decide)) g f
    exact ⟨new, hnew, rfl⟩
  | acceptRequest name user group hwords huser hgroup =>
    refine Fewer.entryStep (fewer_setGroup hgroup fun f new hnew => ?_) (hother hwords (by decide)) g f
    exact ⟨new, hnew, rfl⟩
  | leaveGroup name group hwords huser hgroup =>
    refine Fewer.entryStep (fewer_setGroup hgroup fun f new hnew => ?_) (hother hwords (by decide)) g f
    obtain ⟨file, hfile, hmeta⟩ := metadata_removeSharesOf _ _ f new hnew
    exact ⟨file, hfile, hmeta⟩
  | removeMember name user group hwords huser hgroup =>
    refine Fewer.entryStep (fewer_setGroup hgroup fun f new hnew => ?_) (hother hwords (by decide)) g f
    obtain ⟨file, hfile, hmeta⟩ := metadata_removeSharesOf _ _ f new hnew
    exact ⟨file, hfile, hmeta⟩
  | stopShare name hexFile fileName group file hwords huser hgroup hname hfile hseeder =>
    refine (fewer_setGroup hgroup fun f new hnew => ?_).entryStep (hother hwords (by decide)) g f
    dsimp only at hnew
    split at hnew
    · rw [OrderedMap.find_erase] at hnew
      split at hnew
      · simp at hnew
      · exact ⟨new, hnew, rfl⟩
    · rw [OrderedMap.find_insert] at hnew
      split at hnew
      · next he =>
        obtain rfl := Option.some.inj hnew
        exact ⟨file, he ▸ hfile, rfl⟩
      · exact ⟨new, hnew, rfl⟩
  | uploadFile name args group upload file hwords huser hgroup hmember hupload hfile =>
    exact uploadFile_entryStep hs hwords hgroup hupload hfile g f

/-- A reply with metadata carries those of the entry. -/
theorem answered_entry {g f : Bytes} (h : Answered g f (Machine.event (step ssl) s c)) :
    ∃ file accesses, sharedAs s g f = some file ∧ (step ssl s c).2.response = metaReply file.metadata accesses := by
  obtain ⟨hexFile, hwords, hname, hmeta⟩ := h
  obtain ⟨name, hexFile', fileName, group, file, accesses, hl⟩ := located_of_meta hmeta
  have hsame : name = g ∧ hexFile' = hexFile := by simpa using hl.hwords.symm.trans hwords
  obtain ⟨rfl, rfl⟩ := hsame
  obtain rfl := Option.some.inj (hl.hname.symm.trans hname)
  exact ⟨file, accesses, by rw [sharedAs_of_find hl.hgroup, hl.hfile], hl.hresponse⟩

/-- Where there is no entry, a member's upload makes one with its own metadata. -/
theorem upload_creates {g user : Bytes} {args : List Bytes} {upload : Upload} (hs : s.Consistent)
    (hwords : words c.commandLine = lit "upload_file" :: g :: args) (hupload : parseUpload (g :: args) = some upload)
    (hby : s.sessions.find c.session = some user) (hmember : Member s g user)
    (hnone : sharedAs s g upload.name = none) :
    (step ssl s c).2.response = lit "OK file shared" ∧
      sharedAs (step ssl s c).1 g upload.name =
        some ⟨upload.metadata, OrderedMap.empty.insert user upload.seeder⟩ := by
  obtain ⟨group, hgroup, hin⟩ := hmember
  have huser : s.userOf c.session = user := by simp [userOf, hby]
  have hname : s.userOf c.session ≠ [] := huser ▸ hs.user_name user (hs.session_registered c.session user hby)
  have hspec : (commands ssl).lookup (lit "upload_file") = some ⟨uploadFile, true, -1, lit "upload_file"⟩ := rfl
  have hstep : step ssl s c = uploadFile s (requestOf s c (g :: args)) :=
    step_of_lookup hwords hspec (fun _ => hname) (by simp)
  have hfree : group.files.find upload.name = none := by rwa [sharedAs_of_find hgroup] at hnone
  have hshare : shareFile none upload user = some ⟨upload.metadata, OrderedMap.empty.insert user upload.seeder⟩ := rfl
  have hdone : uploadFile s (requestOf s c (g :: args)) =
      (s.setGroup g { group with
        files := group.files.insert upload.name ⟨upload.metadata, OrderedMap.empty.insert user upload.seeder⟩ },
        ⟨lit "OK file shared", c.session⟩) := by
    simp [uploadFile, findGroup, hgroup, huser, hin, hupload, hfree, hshare, Request.reply]
  rw [hstep, hdone, sharedAs_setGroup]
  simp

end Commands

/-- The metadata with which an entry begins stay for as long as it is listed: every successful upload carries them, and
so does every answer. An entry goes with its last seeder, and the next upload fixes the metadata anew. -/
theorem first_upload_fixes_content (ssl : OpenSsl) (earlier : List Call) (c : Call) (g f : Bytes) :
    (∀ later : List Call, ¬ Listed g f (Machine.run (step ssl) empty earlier) →
      Listed g f (step ssl (Machine.run (step ssl) empty earlier) c).1 →
      Machine.Along (step ssl) (fun t _ => Listed g f t) (step ssl (Machine.run (step ssl) empty earlier) c).1 later →
      ∃ m, Uploaded g f m (Machine.event (step ssl) (Machine.run (step ssl) empty earlier) c) ∧
        (∃ file, sharedAs (step ssl (Machine.run (step ssl) empty earlier) c).1 g f = some file ∧ file.metadata = m) ∧
        ∀ e ∈ Machine.events (step ssl) (step ssl (Machine.run (step ssl) empty earlier) c).1 later,
          (∀ file, sharedAs e.after g f = some file → file.metadata = m) ∧
          (∀ m', Uploaded g f m' e → m' = m) ∧
          (Answered g f e → ∃ accesses, e.output.response = metaReply m accesses)) ∧
    (Listed g f (Machine.run (step ssl) empty earlier) ∧
        ¬ Listed g f (step ssl (Machine.run (step ssl) empty earlier) c).1 ↔
      ∃ user, (∀ v, (Machine.run (step ssl) empty earlier).registration g f v ≠ none ↔ v = user) ∧
        (step ssl (Machine.run (step ssl) empty earlier) c).1.registration g f user = none) ∧
    (∀ user args upload, words c.commandLine = lit "upload_file" :: g :: args →
      parseUpload (g :: args) = some upload → upload.name = f →
      (Machine.run (step ssl) empty earlier).sessions.find c.session = some user →
      Member (Machine.run (step ssl) empty earlier) g user → ¬ Listed g f (Machine.run (step ssl) empty earlier) →
      Uploaded g f upload.metadata (Machine.event (step ssl) (Machine.run (step ssl) empty earlier) c) ∧
        sharedAs (step ssl (Machine.run (step ssl) empty earlier) c).1 g f =
          some ⟨upload.metadata, OrderedMap.empty.insert user upload.seeder⟩) := by
  have hs : (Machine.run (step ssl) empty earlier).Consistent := Reachable.consistent ⟨earlier, rfl⟩
  generalize Machine.run (step ssl) empty earlier = s at hs
  have hs' : (step ssl s c).1.Consistent := step_consistent s c hs
  refine ⟨fun later hnone hlisted halong => ?_, ?_, ?_⟩
  · have hnone : sharedAs s g f = none := by simpa [Listed] using hnone
    obtain ⟨first, hfirst⟩ := Option.isSome_iff_exists.mp hlisted
    have hcreated := ((apply_effect s c).entryStep hs g f).created first hnone hfirst
    refine ⟨first.metadata, hcreated, ⟨first, hfirst, rfl⟩, fun e he => ?_⟩
    -- The invariant: whatever is listed has the metadata of the first upload.
    have hevents := Machine.events_along (P := fun t : TrackerState => t.Consistent ∧
        ∀ file, sharedAs t g f = some file → file.metadata = first.metadata)
      ⟨hs', fun file hfile => by rw [Option.some.inj (hfile.symm.trans hfirst)]⟩ (fun t i ht hlisted => ?_) halong e he
    · obtain ⟨⟨hconsistent, hmeta⟩, hlisted, hevent⟩ := hevents
      obtain ⟨file, hfile⟩ := Option.isSome_iff_exists.mp hlisted
      have hstep := (@apply_effect ssl e.before e.input).entryStep hconsistent g f
      rw [hevent]
      refine ⟨fun new hnew => ?_, fun m hm => ?_, fun hans => ?_⟩
      · rw [hstep.kept file new hfile hnew, hmeta file hfile]
      · obtain ⟨new, hnew, rfl⟩ := hstep.uploaded m hm
        rw [hstep.kept file new hfile hnew, hmeta file hfile]
      · obtain ⟨file', accesses, hfile', hreply⟩ := answered_entry hans
        exact ⟨accesses, by rw [← hmeta file' hfile']; exact hreply⟩
    · obtain ⟨file, hfile⟩ := Option.isSome_iff_exists.mp hlisted
      refine ⟨step_consistent t i ht.1, fun new hnew => ?_⟩
      rw [((apply_effect t i).entryStep ht.1 g f).kept file new hfile hnew, ht.2 file hfile]
  · rw [listed_iff, listed_iff]
    exact disappears_iff (e := Machine.event (step ssl) s c) hs hs' ((apply_effect s c).registrations hs) g f
  · rintro user args upload hwords hupload rfl hby hmember hnone
    have hnone : sharedAs s g upload.name = none := by simpa [Listed] using hnone
    obtain ⟨hreply, hfile⟩ := @upload_creates ssl s c _ _ _ _ hs hwords hupload hby hmember hnone
    exact ⟨⟨args, upload, hwords, hupload, rfl, rfl, hreply⟩, hfile⟩

section Example

/-- Bob fetches a ticket for Alice's file and shares it himself; then Alice logs out. -/
def bobJoinsIn : List Call := [
  ⟨9, lit "download_file g 66", ⟨[], 0, 1000⟩⟩,
  ⟨9, lit "upload_file g 66 0 da39a3ee5e6b4b0d3255bfef95601890afd80709 - 10.0.0.2 6881 " ++ toHex peerKeyOfAlice,
    ⟨[], 0, 1000⟩⟩,
  ⟨7, lit "logout", ⟨[], 0, 1000⟩⟩]

def beforeUpload : List Call := aliceAndBob.take 7

def aliceUploads : Call :=
  ⟨7, lit "upload_file g 66 0 da39a3ee5e6b4b0d3255bfef95601890afd80709 - 10.0.0.1 6881 " ++ toHex peerKeyOfAlice,
    ⟨[], 0, 1000⟩⟩

theorem first_upload_fixes_alice : ∃ m,
    Uploaded (lit "g") (lit "f") m
      (Machine.event (step recording.replay) (Machine.run (step recording.replay) empty beforeUpload) aliceUploads) ∧
    ∀ e ∈ Machine.events (step recording.replay)
      (step recording.replay (Machine.run (step recording.replay) empty beforeUpload) aliceUploads).1 bobJoinsIn,
      ∀ file, sharedAs e.after (lit "g") (lit "f") = some file → file.metadata = m := by
  have hrun : ¬ Listed (lit "g") (lit "f") (Machine.run (step recording.replay) empty beforeUpload) ∧
      Listed (lit "g") (lit "f")
        (step recording.replay (Machine.run (step recording.replay) empty beforeUpload) aliceUploads).1 ∧
      Machine.Along (step recording.replay) (fun t _ => Listed (lit "g") (lit "f") t)
        (step recording.replay (Machine.run (step recording.replay) empty beforeUpload) aliceUploads).1 bobJoinsIn := by
    decide +kernel
  obtain ⟨m, hupload, -, hlater⟩ := (first_upload_fixes_content recording.replay beforeUpload aliceUploads (lit "g")
    (lit "f")).1 bobJoinsIn hrun.1 hrun.2.1 hrun.2.2
  exact ⟨m, hupload, fun e he => (hlater e he).1⟩

end Example

end TorrentAtlas.TrackerState
